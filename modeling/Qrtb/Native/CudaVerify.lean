import Qrtb.Native.Cuda
import Qrtb.Native.Verification

/-!
# Batch verification on the GPU (`src/native/cuda/wots_verify.cu`)

One thread checks one chain of one signature, and a second kernel reduces the 67
results of each transaction. Both find their place in the buffers from one thread
number by arithmetic in `int`, where a value is taken modulo `2 ^ 32`; an index
outside of a buffer is no result. What a thread finds in its local memory is not
known, nor the order in which the threads run.
-/

namespace Qrtb

open Keccak Buffer

namespace Native.Cuda

def WOTS_LEN : ℕ := 67

/-- The value that an `int` gets. -/
def cInt (z : ℤ) : ℤ := Int.bmod z (2 ^ 32)

section Index

variable {α : Type}

/-- `len` elements from an index on. -/
def loadAt (buf : List α) (start : ℤ) (len : ℕ) : Option (List α) :=
  if 0 ≤ start then load buf start.toNat len else none

def readAt (buf : List α) (i : ℤ) : Option α := if 0 ≤ i then buf[i.toNat]? else none

def writeAt (buf : List α) (i : ℤ) (a : α) : Option (List α) :=
  if 0 ≤ i then store buf i.toNat [a] else none

theorem cInt_natCast {n : ℕ} (h : n < 2 ^ 31) : cInt n = n := by
  rw [cInt, Int.bmod_eq_of_le] <;> omega

theorem loadAt_natCast (buf : List α) (start len : ℕ) : loadAt buf start len = load buf start len := by
  rw [loadAt, if_pos (Int.natCast_nonneg start), Int.toNat_natCast]

theorem readAt_natCast (buf : List α) (i : ℕ) : readAt buf i = buf[i]? := by
  rw [readAt, if_pos (Int.natCast_nonneg i), Int.toNat_natCast]

theorem writeAt_natCast {buf : List α} {i : ℕ} (h : i < buf.length) (a : α) :
    writeAt buf i a = some (buf.set i a) := by
  rw [writeAt, if_pos (Int.natCast_nonneg i), Int.toNat_natCast, store_singleton h]

end Index

/-- What a thread finds in its local arrays; `next` is a new array in every round. -/
structure ThreadMemory where
  chunks : Vector UInt8 WOTS_LEN
  next : ℕ → Vector UInt8 32

/-- The two digests are compared byte by byte up to the first difference. -/
def compareChain (current publicKeys : Bytes) (pubChain : ℤ) : Option Bool :=
  forAll 32 fun i => do
    let computed ← current[i]?
    let expected ← readAt publicKeys (pubChain + i)
    return computed == expected

def flag (valid : Bool) : UInt8 := if valid then 1 else 0

/-- The thread number is `blockIdx.x * blockDim.x + threadIdx.x`. -/
def wotsVerifyKernel (signatures publicKeys msgHashes : Bytes) (numTxs : ℤ)
    (memory : ThreadMemory) (thread : ℕ) (chainResults : Bytes) : Option Bytes :=
  let tid := cInt thread
  let totalChains := cInt (numTxs * WOTS_LEN)
  if tid ≥ totalChains then some chainResults
  else do
    let txIdx := tid.tdiv WOTS_LEN
    let chainIdx := tid.tmod WOTS_LEN
    let sig := cInt (cInt (txIdx * WOTS_SIG_SIZE) + cInt (chainIdx * WOTS_N))
    let pubChain := cInt (cInt (txIdx * WOTS_SIG_SIZE) + cInt (chainIdx * WOTS_N))
    let msgHash ← loadAt msgHashes (cInt (txIdx * 32)) 32
    let chunks ← splitHash memory.chunks.toList msgHash
    let chunk ← readAt chunks chainIdx
    let remaining := WOTS_W - 1 - chunk.toNat
    let current ← loadAt signatures sig 32
    let current ← forRange remaining
      (fun i current => gpuSha3_256 current (memory.next i).toList) current
    let valid ← compareChain current publicKeys pubChain
    writeAt chainResults tid (flag valid)

def reduceChainsKernel (chainResults : Bytes) (numTxs : ℤ) (thread : ℕ) (txResults : Bytes) :
    Option Bytes :=
  let txIdx := cInt thread
  if txIdx ≥ numTxs then some txResults
  else do
    let chains := cInt (txIdx * WOTS_LEN)
    let valid ← forAll WOTS_LEN fun i => do
      let chain ← readAt chainResults (chains + i)
      return chain != 0
    writeAt txResults txIdx (flag valid)

/-- The buffers on the device; the results are not initialised. -/
structure Batch (numTxs : ℕ) where
  signatures : Bytes
  publicKeys : Bytes
  msgHashes : Bytes
  chainResults : Bytes
  txResults : Bytes
  length_signatures : signatures.length = numTxs * WOTS_SIG_SIZE
  length_publicKeys : publicKeys.length = numTxs * WOTS_SIG_SIZE
  length_msgHashes : msgHashes.length = numTxs * 32
  length_chainResults : chainResults.length = numTxs * WOTS_LEN
  length_txResults : txResults.length = numTxs

/-- A launch of at least so many threads, each once, whose numbers are values of `int`. -/
structure Launch (threads : ℕ) where
  count : ℕ
  order : List ℕ
  threads_le : threads ≤ count
  count_le : count ≤ 2 ^ 31
  perm : order.Perm (List.range count)

/-- The first kernel, and the second one on its results. -/
def Batch.run {numTxs : ℕ} (batch : Batch numTxs) (memory : ℕ → ThreadMemory)
    (verify : Launch (numTxs * WOTS_LEN)) (reduce : Launch numTxs) : Option Bytes := do
  let chainResults ← runThreads
    (fun thread => wotsVerifyKernel batch.signatures batch.publicKeys batch.msgHashes numTxs
      (memory thread) thread)
    verify.order batch.chainResults
  runThreads (reduceChainsKernel chainResults numTxs) reduce.order batch.txResults

/-- The `t`-th entry of a buffer. -/
def entry (size : ℕ) (buf : Bytes) (t : ℕ) : Bytes := Bytes.slice buf (t * size) ((t + 1) * size)

/-- Every run ends, and marks the transactions whose signature scalar verification accepts. -/
def BatchAgrees (numTxs : ℕ) : Prop :=
  ∀ (batch : Batch numTxs) (memory : ℕ → ThreadMemory) (verify : Launch (numTxs * WOTS_LEN))
    (reduce : Launch numTxs),
    ∃ results, batch.run memory verify reduce = some results ∧ results.length = numTxs ∧
      ∀ t < numTxs, ∀ (message : Bytes) (chunks : Vector UInt8 WOTS_LEN_TOTAL),
        sha3_256 message = entry 32 batch.msgHashes t →
        ∃ accepted, C.wotsVerify chunks.toList message (entry WOTS_SIG_SIZE batch.signatures t)
            (entry WOTS_SIG_SIZE batch.publicKeys t) = some accepted ∧
          results[t]? = some (flag accepted)

section Entry

variable {buf : Bytes} {size numTxs t : ℕ}

theorem entry_room (hbuf : buf.length = numTxs * size) (ht : t < numTxs) :
    t * size + size ≤ buf.length := by
  rw [hbuf, ← Nat.succ_mul]
  exact Nat.mul_le_mul_right size ht

theorem length_entry (hbuf : buf.length = numTxs * size) (ht : t < numTxs) :
    (entry size buf t).length = size := by
  have hroom := entry_room hbuf ht
  rw [entry, Bytes.length_slice]
  omega

theorem load_entry (hbuf : buf.length = numTxs * size) (ht : t < numTxs) :
    load buf (t * size) size = some (entry size buf t) := by
  rw [load, if_pos (entry_room hbuf ht), entry, Bytes.slice, Nat.succ_mul, Nat.add_sub_cancel_left]

theorem drop_entry (t : ℕ) {c : ℕ} (hc : c < WOTS_LEN_TOTAL) :
    (buf.drop (t * WOTS_SIG_SIZE + c * WOTS_N)).take 32 =
      Wots.chainBlock (entry WOTS_SIG_SIZE buf t) c := by
  have hfit : min 32 (WOTS_SIG_SIZE - c * Wots.n) = 32 := by
    simp only [WOTS_LEN_TOTAL, WOTS_SIG_SIZE, WOTS_N, Wots.n] at hc ⊢
    omega
  rw [Wots.chainBlock, Bytes.slice, entry, Bytes.slice, Nat.succ_mul, Nat.add_sub_cancel_left,
    Nat.succ_mul, Nat.add_sub_cancel_left, List.drop_take, List.drop_drop, List.take_take]
  congr 1
  exact hfit.symm

theorem load_block_entry (hbuf : buf.length = numTxs * WOTS_SIG_SIZE) (ht : t < numTxs) {c : ℕ}
    (hc : c < WOTS_LEN_TOTAL) :
    load buf (t * WOTS_SIG_SIZE + c * WOTS_N) 32 =
      some (Wots.chainBlock (entry WOTS_SIG_SIZE buf t) c) := by
  have hroom := entry_room hbuf ht
  have hblock : c * WOTS_N + 32 ≤ WOTS_SIG_SIZE := by
    simp only [WOTS_LEN_TOTAL, WOTS_SIG_SIZE, WOTS_N] at hc ⊢
    omega
  rw [load, if_pos (by omega), drop_entry t hc]

theorem getElem?_block_entry (t : ℕ) {c i : ℕ} (hc : c < WOTS_LEN_TOTAL) (hi : i < 32) :
    buf[t * WOTS_SIG_SIZE + c * WOTS_N + i]? =
      (Wots.chainBlock (entry WOTS_SIG_SIZE buf t) c)[i]? := by
  rw [← drop_entry t hc, List.getElem?_take_of_lt hi, List.getElem?_drop]

end Entry

theorem gpuChain_eq {start : Bytes} (hstart : start.length = 32) (next : ℕ → Vector UInt8 32)
    (remaining : ℕ) :
    forRange remaining (fun i current => gpuSha3_256 current (next i).toList) start =
      some (Wots.hashChain start remaining) := by
  have hround : ∀ i < remaining, ∀ current, current = Wots.hashChain start i →
      ∃ current', gpuSha3_256 current (next i).toList = some current' ∧
        current' = Wots.hashChain start (i + 1) := by
    rintro i - current rfl
    refine ⟨_, gpuSha3_256_eq ?_ (next i), (Wots.hashChain_succ start i).symm⟩
    rw [Wots.length_hashChain hstart]
    decide
  obtain ⟨current, hloop, rfl⟩ :=
    forRange_invariant (I := fun i current => current = Wots.hashChain start i) rfl hround
  exact hloop

theorem compareChain_eq {current expected publicKeys : Bytes} (hcurrent : current.length = 32)
    (hexpected : expected.length = 32) {pubChain : ℕ}
    (hread : ∀ i < 32, publicKeys[pubChain + i]? = expected[i]?) :
    compareChain current publicKeys pubChain = some (current == expected) := by
  have hcheck : ∀ i < 32, (do
      let computed ← current[i]?
      let expected ← readAt publicKeys (pubChain + i)
      return computed == expected) = some (current.getD i 0 == expected.getD i 0) := by
    intro i hi
    rw [← Nat.cast_add, readAt_natCast, hread i hi, List.getElem?_eq_getElem (by omega),
      List.getElem?_eq_getElem (by omega), List.getD_eq_getElem _ _ (by omega),
      List.getD_eq_getElem _ _ (by omega)]
    rfl
  rw [compareChain, forAll_eq hcheck, Option.some_inj, Bool.eq_iff_iff, List.all_eq_true,
    beq_iff_eq]
  constructor
  · intro hall
    apply List.ext_getElem (by omega)
    intro i hi hi'
    have heq := hall i (List.mem_range.mpr (by omega))
    rwa [beq_iff_eq, List.getD_eq_getElem _ _ hi, List.getD_eq_getElem _ _ hi'] at heq
  · rintro rfl i -
    exact beq_self_eq_true _

def Batch.chainValid {numTxs : ℕ} (batch : Batch numTxs) (thread : ℕ) : Bool :=
  chainHolds (entry 32 batch.msgHashes (thread / WOTS_LEN))
    (entry WOTS_SIG_SIZE batch.signatures (thread / WOTS_LEN))
    (entry WOTS_SIG_SIZE batch.publicKeys (thread / WOTS_LEN)) (thread % WOTS_LEN)

theorem block_lt {numTxs t c : ℕ} (ht : t < numTxs) (hc : c < WOTS_LEN_TOTAL) :
    t * WOTS_SIG_SIZE + c * WOTS_N < numTxs * WOTS_SIG_SIZE := by
  have hblock : c * WOTS_N < WOTS_SIG_SIZE := by
    simp only [WOTS_LEN_TOTAL, WOTS_SIG_SIZE, WOTS_N] at hc ⊢
    omega
  calc t * WOTS_SIG_SIZE + c * WOTS_N < t * WOTS_SIG_SIZE + WOTS_SIG_SIZE := by omega
    _ = (t + 1) * WOTS_SIG_SIZE := (Nat.succ_mul t WOTS_SIG_SIZE).symm
    _ ≤ numTxs * WOTS_SIG_SIZE := Nat.mul_le_mul_right _ ht

/-- The products and the sum that make an index stay in the range of `int`. -/
theorem cInt_index {a b : ℕ} (h : a + b < 2 ^ 31) :
    cInt (cInt (a : ℕ) + cInt (b : ℕ)) = ((a + b : ℕ) : ℤ) := by
  rw [cInt_natCast (by omega), cInt_natCast (by omega), ← Nat.cast_add, cInt_natCast h]

section Thread

variable {numTxs : ℕ} (batch : Batch numTxs)

theorem threadWork_eq (memory : ThreadMemory) {t c : ℕ} (ht : t < numTxs)
    (hc : c < WOTS_LEN_TOTAL) {chainResults : Bytes} {tid : ℕ} (htid : tid < chainResults.length) :
    (do
      let msgHash ← load batch.msgHashes (t * 32) 32
      let chunks ← splitHash memory.chunks.toList msgHash
      let chunk ← chunks[c]?
      let current ← load batch.signatures (t * WOTS_SIG_SIZE + c * WOTS_N) 32
      let current ← forRange (WOTS_W - 1 - chunk.toNat)
        (fun i current => gpuSha3_256 current (memory.next i).toList) current
      let valid ← compareChain current batch.publicKeys
        ((t * WOTS_SIG_SIZE + c * WOTS_N : ℕ) : ℤ)
      writeAt chainResults tid (flag valid)) =
    some (chainResults.set tid (flag (chainHolds (entry 32 batch.msgHashes t)
      (entry WOTS_SIG_SIZE batch.signatures t) (entry WOTS_SIG_SIZE batch.publicKeys t) c))) := by
  have hhash := length_entry batch.length_msgHashes ht
  have hsignature := length_chainBlock (length_entry batch.length_signatures ht) hc
  have hpublic := length_chainBlock (length_entry batch.length_publicKeys ht) hc
  have hsplit := splitHash_eq hhash (memory.chunks.length_toList)
  obtain ⟨byte, hbyte, hdigit, -⟩ := getElem?_hashChunks hhash hc
  have hcompare := compareChain_eq
    (Wots.length_hashChain hsignature (WOTS_W - 1 - byte.toNat)) hpublic
    fun i hi => getElem?_block_entry t hc hi
  simp only [Option.bind_eq_bind]
  rw [load_entry batch.length_msgHashes ht, Option.bind_some, hsplit, Option.bind_some, hbyte,
    Option.bind_some, load_block_entry batch.length_signatures ht hc, Option.bind_some,
    gpuChain_eq hsignature, Option.bind_some, hcompare, Option.bind_some, writeAt_natCast htid,
    chainHolds, ← hdigit]
  rfl

/-- A thread writes the result of its chain, or nothing where it has none. -/
theorem wotsVerifyKernel_eq (h : numTxs * WOTS_SIG_SIZE < 2 ^ 31) (memory : ThreadMemory)
    {thread : ℕ} (hthread : thread < 2 ^ 31) {chainResults : Bytes}
    (hresults : chainResults.length = numTxs * WOTS_LEN) :
    wotsVerifyKernel batch.signatures batch.publicKeys batch.msgHashes numTxs memory thread
        chainResults =
      some (if thread < numTxs * WOTS_LEN then
        chainResults.set thread (flag (batch.chainValid thread)) else chainResults) := by
  have htotal : cInt ((numTxs : ℤ) * (WOTS_LEN : ℕ)) = ((numTxs * WOTS_LEN : ℕ) : ℤ) := by
    rw [← Nat.cast_mul, cInt_natCast]
    exact (Nat.mul_le_mul_left numTxs (by decide)).trans_lt h
  by_cases hlt : thread < numTxs * WOTS_LEN
  · have ht : thread / WOTS_LEN < numTxs := Nat.div_lt_of_lt_mul (by rwa [Nat.mul_comm])
    have hc : thread % WOTS_LEN < WOTS_LEN_TOTAL := Nat.mod_lt _ (by decide)
    have hindex : thread / WOTS_LEN * WOTS_SIG_SIZE + thread % WOTS_LEN * WOTS_N < 2 ^ 31 :=
      (block_lt ht hc).trans h
    have hhash : cInt (((thread / WOTS_LEN : ℕ) : ℤ) * 32) =
        ((thread / WOTS_LEN * 32 : ℕ) : ℤ) := by
      have hfit : thread / WOTS_LEN * 32 < 2 ^ 31 :=
        (Nat.mul_le_mul_left _ (by decide)).trans_lt ((Nat.le_add_right _ _).trans_lt hindex)
      rw [← cInt_natCast hfit, Nat.cast_mul]
      rfl
    have hplace := cInt_index hindex
    rw [Nat.cast_mul, Nat.cast_mul] at hplace
    rw [if_pos hlt, wotsVerifyKernel, cInt_natCast hthread, htotal]
    simp only [ge_iff_le, Nat.cast_le]
    rw [if_neg (by omega), ← Int.ofNat_tdiv, ← Int.ofNat_tmod, hplace, hhash, loadAt_natCast,
      loadAt_natCast]
    simp only [readAt_natCast]
    exact threadWork_eq batch memory ht hc (by rwa [hresults])
  · rw [if_neg hlt, wotsVerifyKernel, cInt_natCast hthread, htotal]
    simp only [ge_iff_le, Nat.cast_le]
    rw [if_pos (by omega)]

/-- What the second kernel finds for a transaction. -/
def Batch.txValid (t : ℕ) : Bool :=
  (List.range WOTS_LEN).all (chainHolds (entry 32 batch.msgHashes t)
    (entry WOTS_SIG_SIZE batch.signatures t) (entry WOTS_SIG_SIZE batch.publicKeys t))

theorem reduceChainsKernel_eq (h : numTxs * WOTS_LEN < 2 ^ 31) {thread : ℕ}
    (hthread : thread < 2 ^ 31) {txResults : Bytes} (hresults : txResults.length = numTxs) :
    reduceChainsKernel (array (numTxs * WOTS_LEN) fun k => flag (batch.chainValid k)) numTxs thread
        txResults =
      some (if thread < numTxs then txResults.set thread (flag (batch.txValid thread))
        else txResults) := by
  by_cases hlt : thread < numTxs
  · have hplace : ∀ i < WOTS_LEN, thread * WOTS_LEN + i < numTxs * WOTS_LEN := by
      intro i hi
      calc thread * WOTS_LEN + i < (thread + 1) * WOTS_LEN := by
            rw [Nat.succ_mul]
            omega
        _ ≤ numTxs * WOTS_LEN := Nat.mul_le_mul_right _ hlt
    have hchains : cInt ((thread : ℤ) * (WOTS_LEN : ℕ)) = ((thread * WOTS_LEN : ℕ) : ℤ) := by
      have hfirst := hplace 0 (by decide)
      rw [← Nat.cast_mul, cInt_natCast (by omega)]
    have hcheck : ∀ i < WOTS_LEN, (do
        let chain ← readAt (array (numTxs * WOTS_LEN) fun k => flag (batch.chainValid k))
          (((thread * WOTS_LEN : ℕ) : ℤ) + i)
        return chain != 0) = some (chainHolds (entry 32 batch.msgHashes thread)
          (entry WOTS_SIG_SIZE batch.signatures thread)
          (entry WOTS_SIG_SIZE batch.publicKeys thread) i) := by
      intro i hi
      have hdiv : (thread * WOTS_LEN + i) / WOTS_LEN = thread := by
        rw [Nat.mul_comm, Nat.mul_add_div (by decide), Nat.div_eq_of_lt hi, Nat.add_zero]
      have hmod : (thread * WOTS_LEN + i) % WOTS_LEN = i := by
        rw [Nat.mul_comm, Nat.mul_add_mod, Nat.mod_eq_of_lt hi]
      rw [← Nat.cast_add, readAt_natCast, getElem?_array (hplace i hi), Batch.chainValid, hdiv,
        hmod]
      cases chainHolds (entry 32 batch.msgHashes thread)
        (entry WOTS_SIG_SIZE batch.signatures thread)
        (entry WOTS_SIG_SIZE batch.publicKeys thread) i <;> rfl
    have hwrite : thread < txResults.length := by rwa [hresults]
    rw [if_pos hlt, reduceChainsKernel, cInt_natCast hthread]
    simp only [ge_iff_le, Nat.cast_le]
    rw [if_neg (by omega), hchains, forAll_eq hcheck, Option.bind_eq_bind, Option.bind_some,
      writeAt_natCast hwrite]
    rfl
  · rw [if_neg hlt, reduceChainsKernel, cInt_natCast hthread]
    simp only [ge_iff_le, Nat.cast_le]
    rw [if_pos (by omega)]

theorem run_eq (h : numTxs * WOTS_SIG_SIZE < 2 ^ 31) (memory : ℕ → ThreadMemory)
    (verify : Launch (numTxs * WOTS_LEN)) (reduce : Launch numTxs) :
    batch.run memory verify reduce = some (array numTxs fun t => flag (batch.txValid t)) := by
  have htotal : numTxs * WOTS_LEN < 2 ^ 31 :=
    (Nat.mul_le_mul_left numTxs (by decide)).trans_lt h
  have hverify := runThreads_all verify.threads_le
    (fun thread hthread chainResults hresults => wotsVerifyKernel_eq batch h (memory thread)
      (hthread.trans_le verify.count_le) hresults) verify.perm batch.length_chainResults
  have hreduce := runThreads_all reduce.threads_le
    (fun thread hthread txResults hresults => reduceChainsKernel_eq batch htotal
      (hthread.trans_le reduce.count_le) hresults) reduce.perm batch.length_txResults
  rw [Batch.run, hverify]
  exact hreduce

theorem txValid_eq {t : ℕ} {message : Bytes}
    (hmessage : sha3_256 message = entry 32 batch.msgHashes t) :
    batch.txValid t = Wots.verify message (entry WOTS_SIG_SIZE batch.signatures t)
      (entry WOTS_SIG_SIZE batch.publicKeys t) := by
  rw [Batch.txValid, ← hmessage]
  exact all_chainHolds message _ _

end Thread

theorem batchAgrees_of_lt {numTxs : ℕ} (h : numTxs * WOTS_SIG_SIZE < 2 ^ 31) :
    BatchAgrees numTxs := by
  intro batch memory verify reduce
  refine ⟨_, run_eq batch h memory verify reduce, length_array _ _, ?_⟩
  intro t ht message chunks hmessage
  have hscalar := C.wotsVerify_eq message chunks.length_toList
    (length_entry batch.length_signatures ht) (length_entry batch.length_publicKeys ht)
  exact ⟨_, hscalar, by rw [getElem?_array ht, txValid_eq batch hmessage]⟩

theorem bind_eq_none {α β : Type} {f : α → Option β} (h : ∀ a, f a = none) (x : Option α) :
    x.bind f = none := by
  cases x with
  | none => rfl
  | some a => exact h a

/-- The byte index of a chain is 32 times the thread number, so the thread of number `2 ^ 26` is
the first whose index has no value in `int`. -/
theorem wotsVerifyKernel_overflow {numTxs : ℕ} (h : numTxs * WOTS_LEN < 2 ^ 31)
    (hover : 2 ^ 31 ≤ numTxs * WOTS_SIG_SIZE) (signatures publicKeys msgHashes : Bytes)
    (memory : ThreadMemory) (chainResults : Bytes) :
    wotsVerifyKernel signatures publicKeys msgHashes numTxs memory (2 ^ 26) chainResults = none := by
  have htotal : cInt ((numTxs : ℤ) * (WOTS_LEN : ℕ)) = ((numTxs * WOTS_LEN : ℕ) : ℤ) := by
    rw [← Nat.cast_mul, cInt_natCast h]
  have htid : cInt ((2 ^ 26 : ℕ) : ℤ) = ((2 ^ 26 : ℕ) : ℤ) := cInt_natCast (by decide)
  have hmany : 2 ^ 26 < numTxs * WOTS_LEN := by
    simp only [WOTS_SIG_SIZE, WOTS_LEN_TOTAL, WOTS_N, WOTS_LEN] at hover ⊢
    omega
  have hindex : cInt (cInt (((2 ^ 26 : ℕ) : ℤ).tdiv WOTS_LEN * WOTS_SIG_SIZE) +
      cInt (((2 ^ 26 : ℕ) : ℤ).tmod WOTS_LEN * WOTS_N)) = -2 ^ 31 := by
    decide
  rw [wotsVerifyKernel, htid, htotal]
  simp only [ge_iff_le, Nat.cast_le]
  rw [if_neg (by omega), hindex]
  apply bind_eq_none
  intro msgHash
  apply bind_eq_none
  intro chunks
  apply bind_eq_none
  intro chunk
  rfl

def Batch.zeros (numTxs : ℕ) : Batch numTxs where
  signatures := List.replicate (numTxs * WOTS_SIG_SIZE) 0
  publicKeys := List.replicate (numTxs * WOTS_SIG_SIZE) 0
  msgHashes := List.replicate (numTxs * 32) 0
  chainResults := List.replicate (numTxs * WOTS_LEN) 0
  txResults := List.replicate numTxs 0
  length_signatures := List.length_replicate
  length_publicKeys := List.length_replicate
  length_msgHashes := List.length_replicate
  length_chainResults := List.length_replicate
  length_txResults := List.length_replicate

/-- As many threads as needed, in the order of their numbers. -/
def Launch.inOrder {threads : ℕ} (h : threads ≤ 2 ^ 31) : Launch threads where
  count := threads
  order := List.range threads
  threads_le := le_rfl
  count_le := h
  perm := List.Perm.refl _

theorem not_batchAgrees {numTxs : ℕ} (h : numTxs * WOTS_LEN < 2 ^ 31)
    (hover : 2 ^ 31 ≤ numTxs * WOTS_SIG_SIZE) : ¬ BatchAgrees numTxs := by
  intro hagrees
  have hfew : numTxs ≤ 2 ^ 31 :=
    (Nat.le_mul_of_pos_right numTxs (by decide)).trans h.le
  have hthread : 2 ^ 26 ∈ List.range (numTxs * WOTS_LEN) := by
    rw [List.mem_range]
    simp only [WOTS_SIG_SIZE, WOTS_LEN_TOTAL, WOTS_N, WOTS_LEN] at hover ⊢
    omega
  obtain ⟨results, hrun, -⟩ := hagrees (Batch.zeros numTxs)
    (fun _ => ⟨Vector.replicate WOTS_LEN 0, fun _ => Vector.replicate 32 0⟩)
    (Launch.inOrder h.le) (Launch.inOrder hfew)
  rw [Batch.run, Launch.inOrder, runThreads_eq_none hthread
    (fun chainResults => wotsVerifyKernel_overflow h hover _ _ _ _ chainResults)] at hrun
  cases hrun

/-- Batch verification agrees with scalar verification as long as the signatures of the batch are
indexed within `int`. -/
theorem batchAgrees_iff (numTxs : ℕ) (h : numTxs * WOTS_LEN < 2 ^ 31) :
    BatchAgrees numTxs ↔ numTxs * WOTS_SIG_SIZE < 2 ^ 31 := by
  constructor
  · intro hagrees
    by_contra hover
    exact not_batchAgrees h (not_lt.mp hover) hagrees
  · exact batchAgrees_of_lt

theorem batchAgrees_two : BatchAgrees 2 := (batchAgrees_iff 2 (by decide)).mpr (by decide)

/-- The smallest batch that goes wrong. -/
theorem batch_disagrees : 1001625 * WOTS_LEN < 2 ^ 31 ∧ ¬ BatchAgrees 1001625 :=
  ⟨by decide, not_batchAgrees (by decide) (by decide)⟩

end Native.Cuda

end Qrtb
