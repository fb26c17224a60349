import Qrtb.Lib.Bytes

/-!
# Records read at running offsets

A reader looks at a byte string from an offset and gives a value and the offset behind
it. It undoes an encoding that it reads back inside any surroundings, which is what lets
records stand one after another. Records are read so many times, or until the end of the
string; a loop of the second kind may break off, and it ends because its body advances.
-/

namespace Codec

variable {ε α : Type}

theorem slice_inside (before part after : Bytes) {start stop : ℕ} (h : stop ≤ part.length) :
    Bytes.slice (before ++ part ++ after) (before.length + start) (before.length + stop) =
      Bytes.slice part start stop := by
  have hdrop : Bytes.slice (before ++ part ++ after) (before.length + start)
      (before.length + stop) = Bytes.slice (part ++ after) start stop := by
    rw [Bytes.slice, Bytes.slice, List.append_assoc, List.drop_length_add_append,
      Nat.add_sub_add_left]
  rw [hdrop, Bytes.slice_append_left _ _ h]

/-- Wherever the bytes stand they are read as the value, up to their end. -/
def Undoes (read : Bytes → ℕ → Except ε (α × ℕ)) (data : Bytes) (a : α) : Prop :=
  ∀ before after, read (before ++ data ++ after) before.length =
    .ok (a, before.length + data.length)

/-- So many values, one behind the other. -/
def readMany (read : Bytes → ℕ → Except ε (α × ℕ)) (data : Bytes) :
    ℕ → ℕ → Except ε (List α × ℕ)
  | 0, offset => .ok ([], offset)
  | n + 1, offset => do
    let (a, offset) ← read data offset
    let (as, offset) ← readMany read data n offset
    return (a :: as, offset)

theorem readMany_of_undoes {read : Bytes → ℕ → Except ε (α × ℕ)} {parts : List Bytes}
    {as : List α} (h : List.Forall₂ (Undoes read) parts as) (before after : Bytes) :
    readMany read (before ++ parts.flatten ++ after) as.length before.length =
      .ok (as, before.length + parts.flatten.length) := by
  induction h generalizing before with
  | nil => rfl
  | @cons part a parts as hpart _ ih =>
    have hfirst := hpart before (parts.flatten ++ after)
    have hrest := ih (before ++ part)
    rw [List.length_append] at hrest
    simp only [List.flatten_cons, List.append_assoc, List.length_append, List.length_cons,
      readMany] at hfirst hrest ⊢
    rw [hfirst]
    simp only [bind, Except.bind, hrest, pure, Except.pure, Nat.add_assoc]

/-- The body of a loop over a byte string: it reads one record, or breaks off the loop. -/
structure Body (ε α : Type) where
  step : Bytes → ℕ → Except ε (Option (α × ℕ))
  advances : ∀ {data offset a offset'}, step data offset = .ok (some (a, offset')) →
    offset < offset'

namespace Body

variable (body : Body ε α)

/-- `while offset < len(data)`. -/
def loop (data : Bytes) (offset : ℕ) : Except ε (List α) :=
  if offset < data.length then
    match h : body.step data offset with
    | .error e => .error e
    | .ok none => .ok []
    | .ok (some (a, offset')) =>
      have := body.advances h
      (loop data offset').map (a :: ·)
  else .ok []
termination_by data.length - offset

variable {body} {data : Bytes} {offset : ℕ}

theorem loop_of_le (h : data.length ≤ offset) : body.loop data offset = .ok [] := by
  rw [loop, if_neg (not_lt.mpr h)]

theorem loop_of_error (hlt : offset < data.length) {e : ε}
    (h : body.step data offset = .error e) : body.loop data offset = .error e := by
  rw [loop, if_pos hlt]
  split <;> simp_all

theorem loop_of_break (hlt : offset < data.length) (h : body.step data offset = .ok none) :
    body.loop data offset = .ok [] := by
  rw [loop, if_pos hlt]
  split <;> simp_all

theorem loop_of_record (hlt : offset < data.length) {a : α} {offset' : ℕ}
    (h : body.step data offset = .ok (some (a, offset'))) :
    body.loop data offset = (body.loop data offset').map (a :: ·) := by
  rw [loop, if_pos hlt]
  split <;> simp_all

theorem step_of_loop_eq_error {e : ε} (h : body.loop data offset = .error e) :
    ∃ offset', body.step data offset' = .error e := by
  induction hn : data.length - offset using Nat.strong_induction_on generalizing offset with
  | _ n ih =>
    by_cases hlt : offset < data.length
    · cases hstep : body.step data offset with
      | error e' =>
        rw [loop_of_error hlt hstep] at h
        obtain rfl : e' = e := Except.error.inj h
        exact ⟨offset, hstep⟩
      | ok read =>
        cases read with
        | none =>
          rw [loop_of_break hlt hstep] at h
          cases h
        | some record =>
          obtain ⟨a, stop⟩ := record
          have hadvance := body.advances hstep
          rw [loop_of_record hlt hstep] at h
          cases hrest : body.loop data stop with
          | error e' =>
            rw [hrest] at h
            obtain rfl : e' = e := Except.error.inj h
            exact ih _ (by omega) hrest rfl
          | ok as =>
            rw [hrest] at h
            cases h
    · rw [loop_of_le (not_lt.mp hlt)] at h
      cases h

theorem loop_of_undoes {parts : List Bytes} {as : List α}
    (h : List.Forall₂ (fun part a => part ≠ [] ∧ ∀ before after,
      body.step (before ++ part ++ after) before.length =
        .ok (some (a, before.length + part.length))) parts as) (before : Bytes) :
    body.loop (before ++ parts.flatten) before.length = .ok as := by
  induction h generalizing before with
  | nil => exact loop_of_le (by simp)
  | @cons part a parts as hpart _ ih =>
    obtain ⟨hne, hread⟩ := hpart
    have hfirst := hread before parts.flatten
    have hrest := ih (before ++ part)
    rw [List.length_append] at hrest
    have hlt : before.length < (before ++ part ++ parts.flatten).length := by
      have := List.length_pos_of_ne_nil hne
      simp only [List.length_append]
      omega
    rw [List.flatten_cons, ← List.append_assoc, loop_of_record hlt hfirst, hrest]
    rfl

end Body

/-- Records, one behind the other, and an end that is none. -/
inductive Stream (record ending : Bytes → Prop) : Bytes → Prop
  | ending {data : Bytes} : ending data → Stream record ending data
  | cons {part rest : Bytes} : record part → Stream record ending rest →
      Stream record ending (part ++ rest)

/-- What the body makes of the strings it can stand before: a record is read to its end, an end
breaks off the loop, and nothing else does either. -/
structure Body.Describes (body : Body ε α) (record ending : Bytes → Prop) : Prop where
  nil : ending []
  reads : ∀ {part}, record part → ∀ before after, ∃ a,
    body.step (before ++ part ++ after) before.length = .ok (some (a, before.length + part.length))
  breaks : ∀ {data}, ending data → data ≠ [] → ∀ before,
    body.step (before ++ data) before.length = .ok none
  of_read : ∀ {before data a stop},
    body.step (before ++ data) before.length = .ok (some (a, stop)) →
      ∃ part rest, data = part ++ rest ∧ record part ∧ stop = before.length + part.length
  of_break : ∀ {before data}, data ≠ [] → body.step (before ++ data) before.length = .ok none →
    ending data

namespace Body.Describes

variable {body : Body ε α} {record ending : Bytes → Prop}

theorem loop_of_stream (hb : body.Describes record ending) {data : Bytes}
    (h : Stream record ending data) (before : Bytes) :
    ∃ as, body.loop (before ++ data) before.length = .ok as := by
  induction h generalizing before with
  | @ending data hend =>
    by_cases hne : data = []
    · exact ⟨[], loop_of_le (by simp [hne])⟩
    · have hlt : before.length < (before ++ data).length := by
        have := List.length_pos_of_ne_nil hne
        simp only [List.length_append]
        omega
      exact ⟨[], loop_of_break hlt (hb.breaks hend hne before)⟩
  | @cons part rest hpart _ ih =>
    obtain ⟨a, ha⟩ := hb.reads hpart before rest
    obtain ⟨as, has⟩ := ih (before ++ part)
    have hadvance := body.advances ha
    have hlt : before.length < (before ++ part ++ rest).length := by
      simp only [List.length_append]
      omega
    rw [List.length_append] at has
    rw [← List.append_assoc]
    exact ⟨a :: as, by rw [loop_of_record hlt ha, has]; rfl⟩

theorem stream_of_loop (hb : body.Describes record ending) {before data : Bytes} {as : List α}
    (h : body.loop (before ++ data) before.length = .ok as) : Stream record ending data := by
  induction hn : data.length using Nat.strong_induction_on generalizing before data as with
  | _ n ih =>
    by_cases hne : data = []
    · rw [hne]
      exact .ending hb.nil
    have hlt : before.length < (before ++ data).length := by
      have := List.length_pos_of_ne_nil hne
      simp only [List.length_append]
      omega
    cases hstep : body.step (before ++ data) before.length with
    | error e =>
      rw [loop_of_error hlt hstep] at h
      cases h
    | ok read =>
      cases read with
      | none => exact .ending (hb.of_break hne hstep)
      | some record =>
        obtain ⟨a, stop⟩ := record
        obtain ⟨part, rest, rfl, hpart, rfl⟩ := hb.of_read hstep
        have hadvance := body.advances hstep
        rw [loop_of_record hlt hstep, ← List.append_assoc, ← List.length_append] at h
        cases hrest : body.loop (before ++ part ++ rest) (before ++ part).length with
        | error e =>
          rw [hrest] at h
          cases h
        | ok as =>
          refine .cons hpart (ih rest.length ?_ hrest rfl)
          rw [← hn, List.length_append]
          omega

/-- The loop returns on the streams of records, and raises on everything else. -/
theorem loop_returns_iff (hb : body.Describes record ending) (data : Bytes) :
    (∃ as, body.loop data 0 = .ok as) ↔ Stream record ending data := by
  constructor
  · rintro ⟨as, h⟩
    exact @stream_of_loop _ _ _ _ _ hb [] data as h
  · intro h
    exact hb.loop_of_stream h []

end Body.Describes

end Codec
