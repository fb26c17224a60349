import Mathlib.Data.List.Basic
import Mathlib.Tactic.Ring

/-!
# Buffers

Reads and writes on memory of a fixed size, which have no result where they leave
it, and counted loops. A loop that writes equally long blocks one after another
leaves the blocks, followed by what the buffer held behind them.
-/

namespace Buffer

universe u v

variable {α : Type u}

/-- `len` elements from `start` on. -/
def load (buf : List α) (start len : ℕ) : Option (List α) :=
  if start + len ≤ buf.length then some ((buf.drop start).take len) else none

/-- Replace the elements from `start` on. -/
def store (buf : List α) (start : ℕ) (data : List α) : Option (List α) :=
  if start + data.length ≤ buf.length then
    some (buf.take start ++ (data ++ buf.drop (start + data.length)))
  else none

theorem load_append (pre mid post : List α) :
    load (pre ++ (mid ++ post)) pre.length mid.length = some mid := by
  rw [load, if_pos (by simp), List.drop_left, List.take_left]

theorem store_append (pre old post : List α) {data : List α} (h : data.length = old.length) :
    store (pre ++ (old ++ post)) pre.length data = some (pre ++ (data ++ post)) := by
  rw [store, if_pos (by simp [h]), List.take_left, List.drop_length_add_append, h, List.drop_left]

theorem exists_split {buf : List α} {start len : ℕ} (h : start + len ≤ buf.length) :
    ∃ pre mid post, buf = pre ++ (mid ++ post) ∧ pre.length = start ∧ mid.length = len := by
  refine ⟨buf.take start, (buf.drop start).take len, (buf.drop start).drop len, ?_, ?_, ?_⟩
  · rw [List.take_append_drop, List.take_append_drop]
  · rw [List.length_take]
    omega
  · rw [List.length_take, List.length_drop]
    omega

theorem exists_load {buf : List α} {start len : ℕ} (h : start + len ≤ buf.length) :
    ∃ data, load buf start len = some data ∧ data.length = len := by
  obtain ⟨pre, mid, post, rfl, rfl, rfl⟩ := exists_split h
  exact ⟨mid, load_append pre mid post, rfl⟩

theorem load_all (buf : List α) : load buf 0 buf.length = some buf := by
  simpa using load_append [] buf []

theorem store_singleton {buf : List α} {i : ℕ} (h : i < buf.length) (a : α) :
    store buf i [a] = some (buf.set i a) := by
  have hroom : i + [a].length ≤ buf.length := h
  rw [store, if_pos hroom, List.set_eq_take_append_cons_drop, if_pos h]
  rfl

theorem store_bind_store (buf : List α) (start : ℕ) (d e : List α) :
    (store buf start d).bind (fun buf => store buf (start + d.length) e) =
      store buf start (d ++ e) := by
  by_cases hboth : start + (d ++ e).length ≤ buf.length
  · obtain ⟨pre, old, post, rfl, rfl, hold⟩ := exists_split hboth
    rw [store_append pre old post hold.symm]
    rw [List.length_append] at hold
    have hfirst : d.length = (old.take d.length).length := by
      rw [List.length_take]
      omega
    have hsecond : e.length = (old.drop d.length).length := by
      rw [List.length_drop]
      omega
    have hstore := store_append pre (old.take d.length) (old.drop d.length ++ post) hfirst
    have hnext := store_append (pre ++ d) (old.drop d.length) post hsecond
    rw [← List.append_assoc, ← List.append_assoc, List.append_assoc pre, List.take_append_drop,
      List.append_assoc] at hstore
    rw [List.length_append, List.append_assoc, List.append_assoc] at hnext
    rw [hstore, Option.bind_some, hnext, List.append_assoc]
  · rw [store, store, if_neg hboth]
    split_ifs with hd
    · rw [Option.bind_some, store, if_neg]
      simp only [List.length_append, List.length_take, List.length_drop] at hboth ⊢
      omega
    · rfl

def array (n : ℕ) (f : ℕ → α) : List α := (List.range n).map f

/-- An array of which no element was written; reading such an element has no result. -/
def blank (α : Type u) (n : ℕ) : List (Option α) := List.replicate n none

def peek (a : List (Option α)) (i : ℕ) : Option α := a[i]?.join

def poke (a : List (Option α)) (i : ℕ) (v : α) : Option (List (Option α)) :=
  store a i [some v]

section Array

variable {n i : ℕ} {f g : ℕ → α}

theorem length_array (n : ℕ) (f : ℕ → α) : (array n f).length = n := by simp [array]

theorem getElem?_array (h : i < n) (f : ℕ → α) : (array n f)[i]? = some (f i) := by
  simp [array, h]

theorem array_congr (h : ∀ k < n, f k = g k) : array n f = array n g :=
  List.map_congr_left fun k hk => h k (List.mem_range.mp hk)

theorem array_eq_of_getElem? {buf : List α} (hlen : buf.length = n)
    (h : ∀ k < n, buf[k]? = some (f k)) : buf = array n f := by
  apply List.ext_getElem?
  intro k
  by_cases hk : k < n
  · rw [h k hk, getElem?_array hk]
  · rw [List.getElem?_eq_none (by omega), List.getElem?_eq_none (by rw [length_array]; omega)]

theorem blank_eq_array (n : ℕ) : blank α n = array n fun _ => none := by
  simp [blank, array]

theorem store_array (h : i < n) (f : ℕ → α) (v : α) :
    store (array n f) i [v] = some (array n (Function.update f i v)) := by
  rw [store_singleton (by rwa [length_array])]
  apply congrArg some
  apply array_eq_of_getElem? (by rw [List.length_set, length_array])
  intro k hk
  rw [List.getElem?_set, length_array]
  by_cases hik : i = k
  · subst hik
    simp [h]
  · rw [if_neg hik, getElem?_array hk, Function.update_of_ne fun e => hik e.symm]

theorem peek_array {f : ℕ → Option α} (h : i < n) : peek (array n f) i = f i := by
  rw [peek, getElem?_array h]
  rfl

end Array

section Blocks

variable {size : ℕ} {blocks : List (List α)}

theorem length_flatten_of_size (h : ∀ b ∈ blocks, b.length = size) :
    blocks.flatten.length = blocks.length * size := by
  induction blocks with
  | nil => simp
  | cons b blocks ih =>
    obtain ⟨hb, hrest⟩ := List.forall_mem_cons.mp h
    rw [List.flatten_cons, List.length_append, ih hrest, hb, List.length_cons]
    ring

theorem getElem?_flatten_of_size (h : ∀ b ∈ blocks, b.length = size) (i : ℕ) {j : ℕ}
    (hj : j < size) : blocks.flatten[size * i + j]? = blocks[i]?.bind fun b => b[j]? := by
  induction blocks generalizing i with
  | nil => rfl
  | cons b blocks ih =>
    obtain ⟨hb, hrest⟩ := List.forall_mem_cons.mp h
    rw [List.flatten_cons]
    cases i with
    | zero =>
      rw [Nat.mul_zero, Nat.zero_add, List.getElem?_append_left (by omega)]
      rfl
    | succ i =>
      have hplace : size * (i + 1) + j - size = size * i + j := by
        rw [Nat.mul_succ]
        omega
      rw [List.getElem?_append_right (by rw [hb, Nat.mul_succ]; omega), hb, hplace, ih hrest,
        List.getElem?_cons_succ]

theorem length_flatten_take (h : ∀ b ∈ blocks, b.length = size) {count : ℕ}
    (hcount : count ≤ blocks.length) : (blocks.take count).flatten.length = count * size := by
  rw [length_flatten_of_size fun b hb => h b (List.mem_of_mem_take hb), List.length_take,
    min_eq_left hcount]

theorem flatten_append_split {i : ℕ} (hi : i < blocks.length) (post : List α) :
    blocks.flatten ++ post =
      (blocks.take i).flatten ++ (blocks[i] ++ ((blocks.drop (i + 1)).flatten ++ post)) := by
  rw [← List.append_assoc blocks[i], ← List.flatten_cons, List.getElem_cons_drop,
    ← List.append_assoc, ← List.flatten_append, List.take_append_drop]

theorem load_block (h : ∀ b ∈ blocks, b.length = size) (post : List α) {i : ℕ} {b : List α}
    (hi : blocks[i]? = some b) : load (blocks.flatten ++ post) (i * size) size = some b := by
  obtain ⟨hlt, rfl⟩ := List.getElem?_eq_some_iff.mp hi
  have hload := load_append (blocks.take i).flatten blocks[i]
    ((blocks.drop (i + 1)).flatten ++ post)
  rwa [← flatten_append_split hlt, length_flatten_take h hlt.le,
    h _ (List.getElem_mem hlt)] at hload

theorem store_block (h : ∀ b ∈ blocks, b.length = size) {i : ℕ} (hi : i < blocks.length)
    {b : List α} (hb : b.length = size) :
    store blocks.flatten (i * size) b = some (blocks.set i b).flatten := by
  have hold : b.length = blocks[i].length := by rw [hb, h _ (List.getElem_mem hi)]
  have hsplit := flatten_append_split hi []
  have hstore := store_append (blocks.take i).flatten blocks[i]
    ((blocks.drop (i + 1)).flatten ++ []) hold
  rw [← hsplit, length_flatten_take h hi.le, List.append_nil, List.append_nil] at hstore
  rw [hstore, List.set_eq_take_append_cons_drop, if_pos hi, List.flatten_append,
    List.flatten_cons]

/-- The buffer after some of the blocks were written to its front. -/
def filled (blocks : List (List α)) (size : ℕ) (buf : List α) (count : ℕ) : List α :=
  (blocks.take count).flatten ++ buf.drop (count * size)

@[simp] theorem filled_zero (buf : List α) : filled blocks size buf 0 = buf := by
  simp [filled]

theorem filled_length (buf : List α) :
    filled blocks size buf blocks.length = blocks.flatten ++ buf.drop (blocks.length * size) := by
  rw [filled, List.take_length]

theorem filled_eq_flatten {buf : List α} (h : buf.length = blocks.length * size) :
    filled blocks size buf blocks.length = blocks.flatten := by
  rw [filled_length, List.drop_of_length_le h.le, List.append_nil]

theorem length_filled (h : ∀ b ∈ blocks, b.length = size) {buf : List α}
    (hbuf : blocks.length * size ≤ buf.length) {count : ℕ} (hcount : count ≤ blocks.length) :
    (filled blocks size buf count).length = buf.length := by
  have hle : count * size ≤ buf.length := (Nat.mul_le_mul_right size hcount).trans hbuf
  rw [filled, List.length_append, length_flatten_take h hcount, List.length_drop]
  omega

theorem store_filled (h : ∀ b ∈ blocks, b.length = size) {buf : List α} {count : ℕ} {b : List α}
    (hb : blocks[count]? = some b) (hbuf : blocks.length * size ≤ buf.length) :
    store (filled blocks size buf count) (count * size) b =
      some (filled blocks size buf (count + 1)) := by
  obtain ⟨hlt, rfl⟩ := List.getElem?_eq_some_iff.mp hb
  have hroom : (count + 1) * size ≤ buf.length :=
    (Nat.mul_le_mul_right size hlt).trans hbuf
  have hsize := h _ (List.getElem_mem hlt)
  have hold : ((buf.drop (count * size)).take size).length = size := by
    rw [List.length_take, List.length_drop]
    rw [Nat.succ_mul] at hroom
    omega
  have hsplit : filled blocks size buf count =
      (blocks.take count).flatten ++
        ((buf.drop (count * size)).take size ++ buf.drop ((count + 1) * size)) := by
    rw [filled, Nat.succ_mul, ← List.drop_drop, List.take_append_drop]
  have hstore := store_append (blocks.take count).flatten ((buf.drop (count * size)).take size)
    (buf.drop ((count + 1) * size)) (hsize.trans hold.symm)
  rw [← hsplit, length_flatten_take h hlt.le] at hstore
  rw [hstore, filled, List.take_succ_eq_append_getElem hlt, List.flatten_append, List.append_assoc]
  simp

theorem load_filled (h : ∀ b ∈ blocks, b.length = size) (buf : List α) {count i : ℕ} {b : List α}
    (hi : i < count) (hb : blocks[i]? = some b) :
    load (filled blocks size buf count) (i * size) size = some b := by
  apply load_block fun b hb => h b (List.mem_of_mem_take hb)
  rw [List.getElem?_take_of_lt hi, hb]

end Blocks

section Loops

variable {β : Type v}

/-- `for i in 0..n`. -/
def forRange (n : ℕ) (body : ℕ → β → Option β) (b : β) : Option β :=
  (List.range n).foldlM (fun b i => body i b) b

theorem forRange_invariant {I : ℕ → β → Prop} {n : ℕ} {body : ℕ → β → Option β} {b : β}
    (hstart : I 0 b) (h : ∀ i < n, ∀ b, I i b → ∃ b', body i b = some b' ∧ I (i + 1) b') :
    ∃ b', forRange n body b = some b' ∧ I n b' := by
  induction n with
  | zero => exact ⟨b, rfl, hstart⟩
  | succ n ih =>
    obtain ⟨mid, hbefore, hmid⟩ := ih fun i hi => h i (by omega)
    obtain ⟨b', hround, hend⟩ := h n (Nat.lt_succ_self n) mid hmid
    refine ⟨b', ?_, hend⟩
    rw [forRange] at hbefore ⊢
    rw [List.range_succ, List.foldlM_append, hbefore]
    simp [hround]

theorem forRange_eq_some {n : ℕ} {body : ℕ → β → Option β} {state : ℕ → β}
    (h : ∀ i < n, body i (state i) = some (state (i + 1))) :
    forRange n body (state 0) = some (state n) := by
  have hround : ∀ i < n, ∀ b, b = state i → ∃ b', body i b = some b' ∧ b' = state (i + 1) := by
    rintro i hi b rfl
    exact ⟨state (i + 1), h i hi, rfl⟩
  obtain ⟨b, hloop, rfl⟩ := forRange_invariant (I := fun i b => b = state i) rfl hround
  exact hloop

theorem forRange_succ (n : ℕ) (body : ℕ → β → Option β) (b : β) :
    forRange (n + 1) body b = (forRange n body b).bind (body n) := by
  rw [forRange, List.range_succ, List.foldlM_append]
  simp [forRange, Option.bind_eq_bind]

/-- A loop whose rounds follow those of another one follows the other loop. -/
theorem forRange_simulates {γ : Type*} {R : β → γ → Prop} {n : ℕ} {body : ℕ → β → Option β}
    {body' : ℕ → γ → Option γ}
    (h : ∀ i < n, ∀ b c b', R b c → body i b = some b' → ∃ c', body' i c = some c' ∧ R b' c')
    {b b' : β} {c : γ} (hR : R b c) (hloop : forRange n body b = some b') :
    ∃ c', forRange n body' c = some c' ∧ R b' c' := by
  induction n generalizing b' with
  | zero =>
    obtain rfl := Option.some.inj hloop
    exact ⟨c, rfl, hR⟩
  | succ n ih =>
    rw [forRange_succ, Option.bind_eq_some_iff] at hloop
    obtain ⟨mid, hbefore, hround⟩ := hloop
    obtain ⟨mid', hbefore', hmid⟩ := ih (fun i hi => h i (by omega)) hbefore
    obtain ⟨c', hround', hend⟩ := h n (Nat.lt_succ_self n) mid mid' b' hmid hround
    exact ⟨c', by rw [forRange_succ, hbefore', Option.bind_some, hround'], hend⟩

theorem forRange_update {n m : ℕ} (idx : ℕ → ℕ) (v : ℕ → α → α)
    {body : ℕ → List α → Option (List α)} {f h : ℕ → α}
    (hinj : ∀ i < n, ∀ j < n, idx i = idx j → i = j)
    (hbody : ∀ i < n, ∀ g, body i (array m g) =
      some (array m (Function.update g (idx i) (v i (g (idx i))))))
    (hnew : ∀ i < n, h (idx i) = v i (f (idx i)))
    (hold : ∀ k < m, (∀ i < n, idx i ≠ k) → h k = f k) :
    forRange n body (array m f) = some (array m h) := by
  have hrun : ∃ g, forRange n body (array m f) = some (array m g) ∧
      (∀ i < n, g (idx i) = v i (f (idx i))) ∧ ∀ k, (∀ i < n, idx i ≠ k) → g k = f k := by
    clear hnew hold
    induction n with
    | zero => exact ⟨f, rfl, by simp, fun k _ => rfl⟩
    | succ n ih =>
      obtain ⟨g, hloop, hdone, hrest⟩ := ih (fun i hi j hj => hinj i (by omega) j (by omega))
        fun i hi => hbody i (by omega)
      have hnext : g (idx n) = f (idx n) := by
        apply hrest
        intro i hi heq
        have := hinj i (by omega) n (by omega) heq
        omega
      refine ⟨Function.update g (idx n) (v n (g (idx n))), ?_, ?_, ?_⟩
      · rw [forRange_succ, hloop, Option.bind_some, hbody n (by omega)]
      · intro i hi
        by_cases hin : i = n
        · rw [hin, Function.update_self, hnext]
        · rw [Function.update_of_ne fun heq => hin (hinj i hi n (by omega) heq), hdone i (by omega)]
      · intro k hk
        rw [Function.update_of_ne (hk n (by omega)).symm]
        exact hrest k fun i hi => hk i (by omega)
  obtain ⟨g, hloop, hdone, hrest⟩ := hrun
  rw [hloop]
  apply congrArg some
  apply array_congr
  intro k hk
  by_cases hidx : ∃ i < n, idx i = k
  · obtain ⟨i, hi, rfl⟩ := hidx
    rw [hdone i hi, hnew i hi]
  · have hne : ∀ i < n, idx i ≠ k := fun i hi heq => hidx ⟨i, hi, heq⟩
    rw [hrest k hne, hold k hk hne]

theorem forRange_update_all {n m : ℕ} (idx : ℕ → ℕ) (v : ℕ → α → α)
    {body : ℕ → List α → Option (List α)} {f h : ℕ → α}
    (hinj : ∀ i < n, ∀ j < n, idx i = idx j → i = j) (hsurj : ∀ k < m, ∃ i < n, idx i = k)
    (hbody : ∀ i < n, ∀ g, body i (array m g) =
      some (array m (Function.update g (idx i) (v i (g (idx i))))))
    (hnew : ∀ i < n, h (idx i) = v i (f (idx i))) :
    forRange n body (array m f) = some (array m h) := by
  apply forRange_update idx v hinj hbody hnew
  intro k hk hne
  obtain ⟨i, hi, heq⟩ := hsurj k hk
  exact absurd heq (hne i hi)

theorem forRange_add (n m : ℕ) (body : ℕ → β → Option β) (b : β) :
    forRange (n + m) body b =
      (forRange n body b).bind (forRange m fun i => body (n + i)) := by
  induction m with
  | zero => exact (Option.bind_fun_some _).symm
  | succ m ih =>
    rw [← Nat.add_assoc, forRange_succ, ih, Option.bind_assoc]
    simp only [forRange_succ]

theorem forRange_congr {n : ℕ} {body body' : ℕ → β → Option β}
    (h : ∀ i < n, body i = body' i) : forRange n body = forRange n body' := by
  funext b
  induction n with
  | zero => rfl
  | succ n ih => rw [forRange_succ, forRange_succ, ih fun i hi => h i (by omega), h n (by omega)]

theorem forRange_mul (n : ℕ) {m : ℕ} (hm : 0 < m) (body : ℕ → ℕ → β → Option β) (b : β) :
    forRange n (fun i => forRange m (body i)) b =
      forRange (n * m) (fun k => body (k / m) (k % m)) b := by
  induction n with
  | zero => rw [Nat.zero_mul]; rfl
  | succ n ih =>
    rw [forRange_succ, ih, Nat.succ_mul, forRange_add]
    congr 1
    apply forRange_congr
    intro i hi
    rw [Nat.mul_comm, Nat.mul_add_div hm, Nat.div_eq_of_lt hi, Nat.mul_add_mod,
      Nat.mod_eq_of_lt hi, Nat.add_zero]

/-- `for i in start..stop`. -/
def forFrom (start stop : ℕ) (body : ℕ → β → Option β) (b : β) : Option β :=
  forRange (stop - start) (fun i => body (start + i)) b

theorem forFrom_eq_some {start stop : ℕ} (hle : start ≤ stop) {body : ℕ → β → Option β}
    {state : ℕ → β}
    (h : ∀ i, start ≤ i → i < stop → body i (state i) = some (state (i + 1))) :
    forFrom start stop body (state start) = some (state stop) := by
  have hrounds : ∀ i < stop - start, body (start + i) (state (start + i)) =
      some (state (start + (i + 1))) := by
    intro i hi
    rw [← Nat.add_assoc]
    exact h (start + i) (by omega) (by omega)
  have hloop := forRange_eq_some hrounds
  rwa [Nat.add_sub_cancel' hle] at hloop

theorem forRange_fill {size : ℕ} {blocks : List (List α)} (hsize : ∀ b ∈ blocks, b.length = size)
    {buf : List α} (hbuf : blocks.length * size ≤ buf.length) {body : ℕ → List α → Option (List α)}
    (h : ∀ i b, blocks[i]? = some b → ∀ buf, body i buf = store buf (i * size) b) :
    forRange blocks.length body buf = some (blocks.flatten ++ buf.drop (blocks.length * size)) := by
  have hrounds : ∀ i < blocks.length, body i (filled blocks size buf i) =
      some (filled blocks size buf (i + 1)) := by
    intro i hi
    have hb : blocks[i]? = some blocks[i] := List.getElem?_eq_getElem hi
    rw [h i _ hb, store_filled hsize hb hbuf]
  have hloop := forRange_eq_some hrounds
  rwa [filled_zero, filled_length] at hloop

/-- A loop that is left with `false` at the first check that fails. -/
def forAll (n : ℕ) (check : ℕ → Option Bool) : Option Bool :=
  forRange n (fun i ok => if ok then check i else some false) true

theorem forAll_eq {n : ℕ} {check : ℕ → Option Bool} {holds : ℕ → Bool}
    (h : ∀ i < n, check i = some (holds i)) :
    forAll n check = some ((List.range n).all holds) := by
  have hround : ∀ i < n, ∀ ok, ok = (List.range i).all holds →
      ∃ ok', (if ok then check i else some false) = some ok' ∧
        ok' = (List.range (i + 1)).all holds := by
    rintro i hi ok rfl
    rw [h i hi, List.range_succ, List.all_append]
    cases (List.range i).all holds <;> simp
  obtain ⟨ok, hloop, rfl⟩ :=
    forRange_invariant (I := fun i ok => ok = (List.range i).all holds) rfl hround
  exact hloop

end Loops

section Launch

variable {m : ℕ} {body : ℕ → List α → Option (List α)} {v : ℕ → α}

/-- The threads of a launch run one after another, in an order that nobody knows. -/
def runThreads (body : ℕ → List α → Option (List α)) (order : List ℕ) (buf : List α) :
    Option (List α) := order.foldlM (fun buf thread => body thread buf) buf

theorem runThreads_eq {order : List ℕ}
    (hbody : ∀ k ∈ order, ∀ buf : List α, buf.length = m →
      body k buf = some (if k < m then buf.set k (v k) else buf)) {buf : List α}
    (hbuf : buf.length = m) :
    ∃ buf', runThreads body order buf = some buf' ∧ buf'.length = m ∧
      ∀ k < m, buf'[k]? = if k ∈ order then some (v k) else buf[k]? := by
  induction order generalizing buf with
  | nil => exact ⟨buf, rfl, hbuf, by simp⟩
  | cons thread order ih =>
    have hround := hbody thread List.mem_cons_self buf hbuf
    have hnext : (if thread < m then buf.set thread (v thread) else buf).length = m := by
      split_ifs
      · rw [List.length_set, hbuf]
      · exact hbuf
    obtain ⟨buf', hrun, hlength, hplaces⟩ :=
      ih (fun k hk => hbody k (List.mem_cons_of_mem _ hk)) hnext
    refine ⟨buf', ?_, hlength, fun k hk => ?_⟩
    · rw [runThreads, List.foldlM_cons, hround]
      exact hrun
    · rw [hplaces k hk]
      by_cases hkt : k = thread
      · subst hkt
        simp [hk, hbuf]
      · have hkeep : (if thread < m then buf.set thread (v thread) else buf)[k]? = buf[k]? := by
          split_ifs
          · exact List.getElem?_set_ne (Ne.symm hkt)
          · rfl
        simp [hkt, hkeep]

/-- A launch of enough threads writes every place, in whatever order they run. -/
theorem runThreads_all {count : ℕ} (hcount : m ≤ count)
    (hbody : ∀ k < count, ∀ buf : List α, buf.length = m →
      body k buf = some (if k < m then buf.set k (v k) else buf))
    {order : List ℕ} (horder : order.Perm (List.range count)) {buf : List α}
    (hbuf : buf.length = m) : runThreads body order buf = some (array m v) := by
  have hmem : ∀ k, k ∈ order ↔ k < count := fun k => by rw [horder.mem_iff, List.mem_range]
  obtain ⟨buf', hrun, hlength, hplaces⟩ :=
    runThreads_eq (fun k hk => hbody k ((hmem k).mp hk)) hbuf
  rw [hrun]
  apply congrArg some
  apply array_eq_of_getElem? hlength
  intro k hk
  rw [hplaces k hk, if_pos ((hmem k).mpr (hk.trans_le hcount))]

theorem runThreads_eq_none {order : List ℕ} {thread : ℕ} (hthread : thread ∈ order)
    (hbody : ∀ buf, body thread buf = none) (buf : List α) :
    runThreads body order buf = none := by
  induction order generalizing buf with
  | nil => cases hthread
  | cons first order ih =>
    rw [runThreads, List.foldlM_cons]
    rcases List.mem_cons.mp hthread with rfl | hrest
    · rw [hbody]
      rfl
    · cases body first buf with
      | none => rfl
      | some buf' => exact ih hrest buf'

end Launch

end Buffer
