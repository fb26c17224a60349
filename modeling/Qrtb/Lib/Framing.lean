import Mathlib.Data.List.Basic

/-!
# Messages on a stream

A writer gives the symbols of one message, a reader takes one message off a stream
and leaves the rest, also when it fails. A reader that undoes the writer reads a list
of messages from their joined symbols, and a reader that takes off just what the
writer gives has read such symbols.
-/

namespace Framing

universe u v w

variable {σ : Type u} {μ : Type v} {ε δ : Type w}

/-- So many messages, one after another. The first failure is the result. -/
def readMany (read : List σ → Except ε μ × List σ) : ℕ → List σ → Except ε (List μ) × List σ
  | 0, stream => (.ok [], stream)
  | n + 1, stream =>
    match read stream with
    | (.error e, stream) => (.error e, stream)
    | (.ok m, stream) =>
      match readMany read n stream with
      | (.error e, stream) => (.error e, stream)
      | (.ok ms, stream) => (.ok (m :: ms), stream)

def writeMany (write : μ → Except δ (List σ)) : List μ → Except δ (List σ)
  | [] => .ok []
  | m :: ms => do
    let symbols ← write m
    let rest ← writeMany write ms
    return symbols ++ rest

variable {read : List σ → Except ε μ × List σ} {write : μ → Except δ (List σ)}

theorem readMany_writeMany {ms : List μ}
    (h : ∀ m ∈ ms, ∃ symbols, write m = .ok symbols ∧
      ∀ rest, read (symbols ++ rest) = (.ok m, rest)) :
    ∃ symbols, writeMany write ms = .ok symbols ∧
      ∀ rest, readMany read ms.length (symbols ++ rest) = (.ok ms, rest) := by
  induction ms with
  | nil => exact ⟨[], rfl, fun rest => rfl⟩
  | cons m ms ih =>
    obtain ⟨hhead, htail⟩ := List.forall_mem_cons.mp h
    obtain ⟨first, hwrite, hread⟩ := hhead
    obtain ⟨others, hwrites, hreads⟩ := ih htail
    refine ⟨first ++ others, by rw [writeMany, hwrite, hwrites]; rfl, ?_⟩
    intro rest
    rw [List.append_assoc, List.length_cons, readMany, hread]
    dsimp only
    rw [hreads]

theorem writeMany_readMany
    (h : ∀ stream m rest, read stream = (.ok m, rest) →
      ∃ symbols, write m = .ok symbols ∧ stream = symbols ++ rest)
    {n : ℕ} {stream : List σ} {ms : List μ} {rest : List σ}
    (hread : readMany read n stream = (.ok ms, rest)) :
    ms.length = n ∧ ∃ symbols, writeMany write ms = .ok symbols ∧ stream = symbols ++ rest := by
  induction n generalizing stream ms with
  | zero =>
    obtain ⟨hms, rfl⟩ := Prod.mk.inj hread
    obtain rfl := Except.ok.inj hms
    exact ⟨rfl, [], rfl, rfl⟩
  | succ n ih =>
    rw [readMany] at hread
    split at hread
    · cases hread
    · next m middle hfirst =>
      split at hread
      · cases hread
      · next others _ hothers =>
        obtain ⟨hms, rfl⟩ := Prod.mk.inj hread
        obtain rfl := Except.ok.inj hms
        obtain ⟨symbols, hwrite, rfl⟩ := h _ _ _ hfirst
        obtain ⟨hlen, tail, hwrites, rfl⟩ := ih hothers
        refine ⟨congrArg (· + 1) hlen, symbols ++ tail, ?_, (List.append_assoc ..).symm⟩
        rw [writeMany, hwrite, hwrites]
        rfl

end Framing
