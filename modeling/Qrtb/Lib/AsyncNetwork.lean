import Qrtb.Lib.OrderedDict
import Qrtb.Lib.Transition
import Mathlib.Algebra.Order.Group.Multiset
import Mathlib.Algebra.Order.Ring.Nat
import Mathlib.Data.Multiset.Filter

/-!
# Asynchronous message passing

Nodes with a state, and between them a bag of messages in transit. In a step one
message leaves the bag and its node reacts to it, or a node acts on its own; either
way the node may send messages, and those for a node that does not exist are lost.
A bag has no order, so networks that keep their messages in queues of any kind, for
any time, are refined by this one. The messages sent and handled are kept as the
history of a run.
-/

namespace AsyncNetwork

open Transition

/-- What a node does with a message, given what it reads of the world meanwhile, and on its own:
its next state and the messages it sends. -/
structure System (ι σ M R A : Type) where
  handle : M → R → σ → σ × List (ι × M)
  act : A → σ → σ × List (ι × M)

@[ext]
structure Config (ι σ M : Type) where
  nodes : OrderedDict ι σ
  bag : Multiset (ι × M)
  sent : Multiset (ι × M)
  handled : Multiset (ι × M)

inductive Label (ι M R A : Type) where
  | handle (node : ι) (message : M) (reading : R)
  | act (node : ι) (action : A)

variable {ι σ M R A : Type} [DecidableEq ι]

def Label.node : Label ι M R A → ι
  | .handle v _ _ => v
  | .act v _ => v

/-- The messages that are addressed to a known node. -/
def posted (known : ι → Bool) (letters : List (ι × M)) : Multiset (ι × M) :=
  letters.filter fun l => known l.1

omit [DecidableEq ι] in
@[simp] theorem posted_nil (known : ι → Bool) : posted known ([] : List (ι × M)) = 0 := rfl

omit [DecidableEq ι] in
theorem posted_append (known : ι → Bool) (ls ls' : List (ι × M)) :
    posted known (ls ++ ls') = posted known ls + posted known ls' := by
  rw [posted, posted, posted, List.filter_append, Multiset.coe_add]

omit [DecidableEq ι] in
theorem posted_cons_of_known {known : ι → Bool} {k : ι} (h : known k = true) (m : M)
    (ls : List (ι × M)) : posted known ((k, m) :: ls) = (k, m) ::ₘ posted known ls := by
  have hfilter : ((k, m) :: ls).filter (fun l => known l.1) =
      (k, m) :: ls.filter fun l => known l.1 := List.filter_cons_of_pos h
  rw [posted, hfilter, posted, Multiset.cons_coe]

omit [DecidableEq ι] in
theorem posted_cons_of_unknown {known : ι → Bool} {k : ι} (h : known k = false) (m : M)
    (ls : List (ι × M)) : posted known ((k, m) :: ls) = posted known ls := by
  have hfilter : ((k, m) :: ls).filter (fun l => known l.1) = ls.filter fun l => known l.1 :=
    List.filter_cons_of_neg (by rw [h]; exact Bool.false_ne_true)
  rw [posted, hfilter, posted]

omit [DecidableEq ι] in
theorem mem_posted {known : ι → Bool} {ls : List (ι × M)} {l : ι × M} :
    l ∈ posted known ls ↔ l ∈ ls ∧ known l.1 = true := by
  rw [posted, Multiset.mem_coe, List.mem_filter]

inductive Step (S : System ι σ M R A) : Config ι σ M → Label ι M R A → Config ι σ M → Prop
  | handle {c : Config ι σ M} {v : ι} {s : σ} {m : M} {r : R} {bag : Multiset (ι × M)}
      (known : c.nodes.get? v = some s) (waiting : c.bag = (v, m) ::ₘ bag) :
      Step S c (.handle v m r)
        { nodes := c.nodes.set v (S.handle m r s).1
          bag := bag + posted c.nodes.contains (S.handle m r s).2
          sent := c.sent + posted c.nodes.contains (S.handle m r s).2
          handled := (v, m) ::ₘ c.handled }
  | act {c : Config ι σ M} {v : ι} {s : σ} {a : A} (known : c.nodes.get? v = some s) :
      Step S c (.act v a)
        { nodes := c.nodes.set v (S.act a s).1
          bag := c.bag + posted c.nodes.contains (S.act a s).2
          sent := c.sent + posted c.nodes.contains (S.act a s).2
          handled := c.handled }

variable {S : System ι σ M R A} {c c' : Config ι σ M} {l : Label ι M R A} {ls : List (Label ι M R A)}

theorem Step.of_handle {v : ι} {s : σ} {m : M} {r : R} {bag : Multiset (ι × M)}
    (known : c.nodes.get? v = some s) (waiting : c.bag = (v, m) ::ₘ bag)
    (hnodes : c'.nodes = c.nodes.set v (S.handle m r s).1)
    (hbag : c'.bag = bag + posted c.nodes.contains (S.handle m r s).2)
    (hsent : c'.sent = c.sent + posted c.nodes.contains (S.handle m r s).2)
    (hhandled : c'.handled = (v, m) ::ₘ c.handled) : Step S c (.handle v m r) c' := by
  obtain ⟨_, _, _, _⟩ := c'
  subst hnodes hbag hsent hhandled
  exact .handle known waiting

theorem Step.of_act {v : ι} {s : σ} {a : A} (known : c.nodes.get? v = some s)
    (hnodes : c'.nodes = c.nodes.set v (S.act a s).1)
    (hbag : c'.bag = c.bag + posted c.nodes.contains (S.act a s).2)
    (hsent : c'.sent = c.sent + posted c.nodes.contains (S.act a s).2)
    (hhandled : c'.handled = c.handled) : Step S c (.act v a) c' := by
  obtain ⟨_, _, _, _⟩ := c'
  subst hnodes hbag hsent hhandled
  exact .act known

/-- Every message that was sent is in transit or was handled, as often as it was sent. -/
def Config.Balanced (c : Config ι σ M) : Prop := c.bag + c.handled = c.sent

theorem Config.Balanced.step (hc : c.Balanced) (h : Step S c l c') : c'.Balanced := by
  unfold Config.Balanced at hc ⊢
  cases h with
  | @handle v s m r bag known waiting =>
    rw [waiting] at hc
    rw [← hc, Multiset.add_cons, Multiset.cons_add, Multiset.cons_add]
    exact congrArg _ (add_right_comm ..)
  | act known =>
    rw [← hc]
    exact add_right_comm ..

theorem Config.Balanced.run (hc : c.Balanced) (h : Run (Step S) c ls c') : c'.Balanced :=
  h.invariant (I := Config.Balanced) (fun _ _ _ hc hst => hc.step hst) hc

/-- A node has moved on, the messages that are done have left the bag and those it sent to nodes
that exist have entered it. -/
structure Moves (c : Config ι σ M) (k : ι) (r : σ × List (ι × M)) (done : Set (ι × M))
    (c' : Config ι σ M) : Prop where
  nodes : c'.nodes = c.nodes.set k r.1
  kept : ∀ l ∈ c.bag, l ∉ done → l ∈ c'.bag
  posted : ∀ l ∈ r.2, c.nodes.contains l.1 = true → l ∈ c'.bag
  bag : ∀ l ∈ c'.bag, l ∈ c.bag ∨ l ∈ r.2

theorem Step.moves (h : Step S c l c') : ∃ s, c.nodes.get? l.node = some s ∧
    ((∃ m r, l = .handle l.node m r ∧ (l.node, m) ∈ c.bag ∧
        Moves c l.node (S.handle m r s) {(l.node, m)} c') ∨
      ∃ a, l = .act l.node a ∧ Moves c l.node (S.act a s) ∅ c') := by
  cases h with
  | @handle v s m r bag known waiting =>
    refine ⟨s, known, Or.inl ⟨m, r, rfl, waiting ▸ Multiset.mem_cons_self _ _, rfl, ?_, ?_, ?_⟩⟩
    · intro l hl hdone
      rw [waiting] at hl
      exact Multiset.mem_add.mpr (Or.inl ((Multiset.mem_cons.mp hl).resolve_left hdone))
    · exact fun l hl hknown => Multiset.mem_add.mpr (Or.inr (mem_posted.mpr ⟨hl, hknown⟩))
    · intro l hl
      refine (Multiset.mem_add.mp hl).imp (fun h => ?_) fun h => (mem_posted.mp h).1
      rw [waiting]
      exact Multiset.mem_cons_of_mem h
  | @act v s a known =>
    refine ⟨s, known, Or.inr ⟨a, rfl, rfl, ?_, ?_, ?_⟩⟩
    · exact fun l hl _ => Multiset.mem_add.mpr (Or.inl hl)
    · exact fun l hl hknown => Multiset.mem_add.mpr (Or.inr (mem_posted.mpr ⟨hl, hknown⟩))
    · exact fun l hl => (Multiset.mem_add.mp hl).imp (fun h => h) fun h => (mem_posted.mp h).1

theorem Step.contains (h : Step S c l c') : c'.nodes.contains = c.nodes.contains := by
  cases h with
  | handle known _ => exact OrderedDict.contains_set_of_get? known _
  | act known => exact OrderedDict.contains_set_of_get? known _

def Config.weight (w : M → ℕ) (c : Config ι σ M) : ℕ := (c.bag.map fun l => w l.2).sum

/-- What a node answers weighs less than the message, as long as the node is of a kind, and it stays
of that kind. -/
structure Outweighs (S : System ι σ M R A) (I : ι → σ → Prop) (w : M → ℕ) : Prop where
  weight : ∀ k s m r, I k s → ((S.handle m r s).2.map fun l => w l.2).sum < w m
  keeps : ∀ k s m r, I k s → I k (S.handle m r s).1

omit [DecidableEq ι] in
theorem sum_posted_le (known : ι → Bool) (w : M → ℕ) (ls : List (ι × M)) :
    ((posted known ls).map fun l => w l.2).sum ≤ (ls.map fun l => w l.2).sum := by
  rw [posted, Multiset.map_coe, Multiset.sum_coe]
  exact (List.filter_sublist.map _).sum_le_sum fun _ _ => Nat.zero_le _

omit [DecidableEq ι] in
theorem bag_eq_zero_of_weight {w : M → ℕ} (hw : ∀ m, 0 < w m) (h : c.weight w = 0) : c.bag = 0 := by
  by_contra hne
  obtain ⟨l, hl⟩ := Multiset.exists_mem_of_ne_zero hne
  obtain ⟨bag, hbag⟩ := Multiset.exists_cons_of_mem hl
  rw [Config.weight, hbag, Multiset.map_cons, Multiset.sum_cons] at h
  have hpos := hw l.2
  omega

theorem Outweighs.run {I : ι → σ → Prop} {w : M → ℕ} (hw : Outweighs S I w)
    (hls : ∀ l ∈ ls, ∃ k m r, l = .handle k m r) (h : Run (Step S) c ls c')
    (hc : ∀ k s, c.nodes.get? k = some s → I k s) :
    ls.length + c'.weight w ≤ c.weight w ∧ ∀ k s, c'.nodes.get? k = some s → I k s := by
  induction h with
  | nil => exact ⟨(Nat.zero_add _).le, hc⟩
  | @cons c c₁ c₂ l ls hstep _ ih =>
    obtain ⟨⟨k, m, r, rfl⟩, hrest⟩ := List.forall_mem_cons.mp hls
    cases hstep with
    | @handle _ s _ _ bag known waiting =>
      have hanswer := hw.weight k s m r (hc k s known)
      have hposted := sum_posted_le c.nodes.contains w (S.handle m r s).2
      obtain ⟨hle, hI⟩ := ih hrest (OrderedDict.forall_get?_set
        (hw.keeps k s m r (hc k s known)) hc)
      refine ⟨?_, hI⟩
      have hweight : c.weight w = w m + (bag.map fun l => w l.2).sum := by
        rw [Config.weight, waiting, Multiset.map_cons, Multiset.sum_cons]
      have hnext : ∀ c₁ : Config ι σ M, c₁.bag = bag + posted c.nodes.contains (S.handle m r s).2 →
          c₁.weight w = (bag.map fun l => w l.2).sum +
            ((posted c.nodes.contains (S.handle m r s).2).map fun l => w l.2).sum := by
        intro c₁ h
        rw [Config.weight, h, Multiset.map_add, Multiset.sum_add]
      have hle' := hle.trans_eq (hnext _ rfl)
      rw [List.length_cons, hweight]
      omega

end AsyncNetwork
