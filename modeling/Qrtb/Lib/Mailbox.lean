import Qrtb.Lib.AsyncNetwork
import Qrtb.Lib.Objects

/-!
# Nodes with an inbox and an outbox

A node keeps the messages it has received and not looked at, and those it sends
until somebody collects them. A method of the node that reads and writes its state
and adds to its outbox does the same whatever lies in the two boxes. So a network
of such nodes, whatever its queues, is seen from outside as nodes with their states
and a bag of messages in transit. The logs of what was sent and handled are history.
-/

namespace Mailbox

open Stateful AsyncNetwork Transition

structure Node (ι M σ : Type) where
  state : σ
  inbox : List M := []
  outbox : List (ι × M) := []
  sent : List (ι × M) := []
  handled : List M := []

variable {ι M σ α β : Type}

namespace Node

def post (letters : List (ι × M)) (n : Node ι M σ) : Node ι M σ :=
  { n with outbox := n.outbox ++ letters, sent := n.sent ++ letters }

/-- `inbox.pop(0)`, of an inbox that is not empty. -/
def pop (n : Node ι M σ) : Node ι M σ :=
  match n.inbox with
  | [] => n
  | m :: rest => { n with inbox := rest, handled := n.handled ++ [m] }

theorem pop_of_inbox {n : Node ι M σ} {m : M} {rest : List M} (h : n.inbox = m :: rest) :
    n.pop = { n with inbox := rest, handled := n.handled ++ [m] } := by
  rw [pop, h]

def put (m : M) (n : Node ι M σ) : Node ι M σ := { n with inbox := n.inbox ++ [m] }

/-- The messages are with the one who collected them. -/
def clear (n : Node ι M σ) : Node ι M σ := { n with outbox := [] }

end Node

def onState (x : Stateful σ α) : Stateful (Node ι M σ) α :=
  on Node.state (fun s n => { n with state := s }) x

def send (letters : σ → List (ι × M)) : Stateful (Node ι M σ) Unit :=
  modify fun n => n.post (letters n.state)

/-- What a method does to the state of a node, and what it sends. -/
def reaction (x : Stateful (Node ι M σ) α) (s : σ) : σ × List (ι × M) :=
  ((x { state := s }).2.state, (x { state := s }).2.outbox)

theorem reaction_bind_pure (x : Stateful (Node ι M σ) α) (f : α → β) (s : σ) :
    reaction (x >>= fun a => pure (f a)) s = reaction x s := by
  rw [reaction, snd_bind_pure, reaction]

/-- The method does the same whatever lies in the boxes. -/
structure Local (x : Stateful (Node ι M σ) α) : Prop where
  result : ∀ n, (x n).1 = (x { state := n.state }).1
  node : ∀ n, (x n).2 =
    { n.post (reaction x n.state).2 with state := (reaction x n.state).1 }

theorem Node.post_nil (n : Node ι M σ) : n.post [] = n := by
  rw [post, List.append_nil, List.append_nil]

theorem local_pure (a : α) : Local (pure a : Stateful (Node ι M σ) α) :=
  ⟨fun _ => rfl, fun n => n.post_nil.symm⟩

theorem local_ofExcept (x : Except PyError α) : Local (ofExcept x : Stateful (Node ι M σ) α) :=
  ⟨fun _ => rfl, fun n => n.post_nil.symm⟩

theorem local_onState (x : Stateful σ α) : Local (onState x : Stateful (Node ι M σ) α) := by
  refine ⟨fun _ => rfl, fun n => ?_⟩
  have hpost : n.post (reaction (onState x : Stateful (Node ι M σ) α) n.state).2 = n := n.post_nil
  rw [hpost]
  rfl

theorem local_send (letters : σ → List (ι × M)) : Local (send letters) := by
  refine ⟨fun _ => rfl, fun n => ?_⟩
  rfl

theorem Local.bind {x : Stateful (Node ι M σ) α} {f : α → Stateful (Node ι M σ) β} (hx : Local x)
    (hf : ∀ a, Local (f a)) : Local (x >>= f) := by
  have hboth : ∀ n, ((x >>= f) n).1 = ((x >>= f) { state := n.state }).1 ∧ ((x >>= f) n).2 =
      { n.post (reaction (x >>= f) n.state).2 with state := (reaction (x >>= f) n.state).1 } := by
    intro n
    have hresult := hx.result n
    cases hr : (x { state := n.state }).1 with
    | error e =>
      rw [hr] at hresult
      rw [reaction, bind_of_error hr, bind_of_error hresult]
      exact ⟨rfl, hx.node n⟩
    | ok a =>
      rw [hr] at hresult
      rw [reaction, bind_of_ok hr, bind_of_ok hresult]
      have hrest := (hf a).node (x { state := n.state }).2
      have hrest' := (hf a).node (x n).2
      refine ⟨?_, ?_⟩
      · rw [(hf a).result (x n).2, (hf a).result (x { state := n.state }).2, hx.node n]
        rfl
      · rw [hrest', hx.node n, hrest]
        simp [Node.post, reaction]
  exact ⟨fun n => (hboth n).1, fun n => (hboth n).2⟩

theorem Local.ite {c : Prop} [Decidable c] {x y : Stateful (Node ι M σ) α} (hx : Local x)
    (hy : Local y) : Local (if c then x else y) := by
  split_ifs
  · exact hx
  · exact hy

def addressed (k : ι) (ms : List M) : Multiset (ι × M) := (ms.map fun m => (k, m) : List (ι × M))

theorem addressed_cons (k : ι) (m : M) (ms : List M) :
    addressed k (m :: ms) = (k, m) ::ₘ addressed k ms := rfl

theorem addressed_append (k : ι) (ms ms' : List M) :
    addressed k (ms ++ ms') = addressed k ms + addressed k ms' := by
  rw [addressed, addressed, addressed, List.map_append, Multiset.coe_add]

theorem addressed_append_singleton (k : ι) (ms : List M) (m : M) :
    addressed k (ms ++ [m]) = (k, m) ::ₘ addressed k ms := by
  rw [addressed_append, addressed_cons, Multiset.add_cons]
  exact congrArg _ (add_zero _)

def gathered (w : ι → Node ι M σ → Multiset (ι × M)) (nodes : OrderedDict ι (Node ι M σ)) :
    Multiset (ι × M) :=
  (nodes.items.map fun p => w p.1 p.2).sum

variable [DecidableEq ι]

def view (nodes : OrderedDict ι (Node ι M σ)) (queue : List (ι × M)) : Config ι σ M where
  nodes := nodes.map Node.state
  bag := gathered (fun _ n => posted nodes.contains n.outbox) nodes + posted nodes.contains queue +
    gathered (fun k n => addressed k n.inbox) nodes
  sent := gathered (fun _ n => posted nodes.contains n.sent) nodes
  handled := gathered (fun k n => addressed k n.handled) nodes

section

variable {nodes : OrderedDict ι (Node ι M σ)} {k : ι} {n : Node ι M σ}

/-- A node holds its part, and what the others hold does not depend on it. -/
theorem exists_rest (w : ι → Node ι M σ → Multiset (ι × M)) (h : nodes.get? k = some n) :
    ∃ rest, gathered w nodes = w k n + rest ∧
      ∀ n', gathered w (nodes.set k n') = w k n' + rest := by
  obtain ⟨pre, post, hitems⟩ := OrderedDict.exists_items h
  refine ⟨(pre.map fun p => w p.1 p.2).sum + (post.map fun p => w p.1 p.2).sum, ?_, ?_⟩
  · rw [gathered, hitems, List.map_append, List.map_cons, List.sum_append, List.sum_cons]
    exact add_left_comm ..
  · intro n'
    rw [gathered, OrderedDict.items_set_of_items hitems, List.map_append, List.map_cons,
      List.sum_append, List.sum_cons]
    exact add_left_comm ..

theorem exists_view (h : nodes.get? k = some n) (queue : List (ι × M)) :
    ∃ bag sent handled,
      ((view nodes queue).bag = posted nodes.contains n.outbox + addressed k n.inbox + bag ∧
        (view nodes queue).sent = posted nodes.contains n.sent + sent ∧
        (view nodes queue).handled = addressed k n.handled + handled) ∧
      ∀ n', (view (nodes.set k n') queue).nodes = (view nodes queue).nodes.set k n'.state ∧
        (view (nodes.set k n') queue).bag =
          posted nodes.contains n'.outbox + addressed k n'.inbox + bag ∧
        (view (nodes.set k n') queue).sent = posted nodes.contains n'.sent + sent ∧
        (view (nodes.set k n') queue).handled = addressed k n'.handled + handled := by
  obtain ⟨outboxes, hout, hout'⟩ := exists_rest (fun _ n => posted nodes.contains n.outbox) h
  obtain ⟨inboxes, hin, hin'⟩ := exists_rest (fun k n => addressed k n.inbox) h
  obtain ⟨sent, hsent, hsent'⟩ := exists_rest (fun _ n => posted nodes.contains n.sent) h
  obtain ⟨handled, hhandled, hhandled'⟩ := exists_rest (fun k n => addressed k n.handled) h
  refine ⟨outboxes + inboxes + posted nodes.contains queue, sent, handled, ⟨?_, hsent, hhandled⟩,
    fun n' => ⟨(OrderedDict.set_map ..).symm, ?_, ?_, hhandled' n'⟩⟩
  · rw [view, hout, hin]
    ac_rfl
  · rw [view, OrderedDict.contains_set_of_get? h, hout', hin']
    ac_rfl
  · rw [view, OrderedDict.contains_set_of_get? h, hsent']

variable {R A : Type} {S : System ι σ M R A} {x : Stateful (Node ι M σ) α}

/-- A node that takes the first message out of its inbox and reacts to it. -/
theorem step_handle {m : M} {r : R} (hS : S.handle m r = reaction x) (hx : Local x)
    (hget : nodes.get? k = some n) {inbox : List M} (hinbox : n.inbox = m :: inbox)
    (queue : List (ι × M)) :
    Step S (view nodes queue) (.handle k m r) (view (nodes.set k (x n.pop).2) queue) := by
  obtain ⟨bag, sent, handled, ⟨hbag, hsent, hhandled⟩, hnext⟩ := exists_view hget queue
  obtain ⟨hnodes', hbag', hsent', hhandled'⟩ := hnext (x n.pop).2
  have hstate : (view nodes queue).nodes.get? k = some n.state := by
    rw [view, OrderedDict.get?_map, hget, Option.map_some]
  have hknown : (view nodes queue).nodes.contains = nodes.contains := OrderedDict.contains_map ..
  rw [hx.node, Node.pop_of_inbox hinbox] at hnodes' hbag' hsent' hhandled'
  have hwaiting : (view nodes queue).bag =
      (k, m) ::ₘ (posted nodes.contains n.outbox + addressed k inbox + bag) := by
    rw [hbag, hinbox, addressed_cons, Multiset.add_cons, Multiset.cons_add]
  refine .of_handle hstate hwaiting ?_ ?_ ?_ ?_
  · rw [hx.node, Node.pop_of_inbox hinbox, hnodes', hS]
  · rw [hx.node, Node.pop_of_inbox hinbox, hbag', hS, hknown]
    simp only [Node.post, posted_append]
    ac_rfl
  · rw [hx.node, Node.pop_of_inbox hinbox, hsent', hsent, hS, hknown]
    simp only [Node.post, posted_append]
    ac_rfl
  · rw [hx.node, Node.pop_of_inbox hinbox, hhandled', hhandled, Node.post,
      addressed_append_singleton, Multiset.cons_add]

theorem step_act {a : A} (hS : S.act a = reaction x) (hx : Local x) (hget : nodes.get? k = some n)
    (queue : List (ι × M)) :
    Step S (view nodes queue) (.act k a) (view (nodes.set k (x n).2) queue) := by
  obtain ⟨bag, sent, handled, ⟨hbag, hsent, hhandled⟩, hnext⟩ := exists_view hget queue
  obtain ⟨hnodes', hbag', hsent', hhandled'⟩ := hnext (x n).2
  have hstate : (view nodes queue).nodes.get? k = some n.state := by
    rw [view, OrderedDict.get?_map, hget, Option.map_some]
  have hknown : (view nodes queue).nodes.contains = nodes.contains := OrderedDict.contains_map ..
  rw [hx.node] at hnodes' hbag' hsent' hhandled'
  refine .of_act hstate ?_ ?_ ?_ ?_
  · rw [hx.node, hnodes', hS]
  · rw [hx.node, hbag', hbag, hS, hknown]
    simp only [Node.post, posted_append]
    ac_rfl
  · rw [hx.node, hsent', hsent, hS, hknown]
    simp only [Node.post, posted_append]
    ac_rfl
  · rw [hx.node, hhandled', hhandled]
    rfl

def handleNext (receive : M → ℕ → Stateful (Node ι M σ) Unit) (p : M × ℕ) :
    Stateful (Node ι M σ) Unit := do
  modify Node.pop
  receive p.1 p.2

/-- One message after the other; no reaction puts one into the inbox. -/
def drain (receive : M → ℕ → Stateful (Node ι M σ) Unit) : Stateful (Node ι M σ) Unit := do
  let inbox ← reads Node.inbox
  let _ ← forEach (handleNext receive) inbox.zipIdx

/-- Processing an inbox, to its end or to the first exception, handles messages one by one. -/
theorem run_drain {receive : M → ℕ → Stateful (Node ι M σ) Unit} {reading : ℕ → R}
    (hS : ∀ m i, S.handle m (reading i) = reaction (receive m i)) (hlocal : ∀ m i, Local (receive m i))
    (hget : nodes.get? k = some n) (queue : List (ι × M)) :
    ∃ labels, (∀ l ∈ labels, ∃ m i, l = .handle k m (reading i)) ∧
      Run (Step S) (view nodes queue) labels (view (nodes.set k (drain receive n).2) queue) := by
  have hloop : ∀ (ms : List (M × ℕ)) (nodes : OrderedDict ι (Node ι M σ)) (n : Node ι M σ),
      nodes.get? k = some n → n.inbox = ms.map Prod.fst →
      ∃ labels, (∀ l ∈ labels, ∃ m i, l = .handle k m (reading i)) ∧
        Run (Step S) (view nodes queue) labels
          (view (nodes.set k (forEach (handleNext receive) ms n).2) queue) := by
    intro ms
    induction ms with
    | nil =>
      intro nodes n hget _
      refine ⟨[], List.forall_mem_nil _, ?_⟩
      rw [forEach, pure_apply, OrderedDict.set_eq_self hget]
      exact .nil _
    | cons p ms ih =>
      intro nodes n hget hinbox
      have hstep := step_handle (hS p.1 p.2) (hlocal p.1 p.2) hget hinbox queue
      have hbody : handleNext receive p n = receive p.1 p.2 n.pop := rfl
      cases hr : (receive p.1 p.2 n.pop).1 with
      | error e =>
        refine ⟨[.handle k p.1 (reading p.2)], List.forall_mem_singleton.mpr ⟨_, _, rfl⟩, ?_⟩
        rw [forEach, bind_of_error (hbody ▸ hr), hbody]
        exact .single hstep
      | ok _ =>
        have hrest : (receive p.1 p.2 n.pop).2.inbox = ms.map Prod.fst := by
          rw [(hlocal p.1 p.2).node, Node.pop_of_inbox hinbox]
          rfl
        obtain ⟨labels, hlabels, hrun⟩ := ih _ _ (OrderedDict.get?_set_self nodes k _) hrest
        rw [OrderedDict.set_set_of_get? hget] at hrun
        refine ⟨.handle k p.1 (reading p.2) :: labels,
          List.forall_mem_cons.mpr ⟨⟨_, _, rfl⟩, hlabels⟩, ?_⟩
        rw [snd_forEach_cons _ (hbody ▸ hr), hbody]
        exact .cons hstep hrun
  have hdrain : (drain receive n).2 =
      (forEach (handleNext receive) n.inbox.zipIdx n).2 := by
    rw [drain, reads_bind]
    exact snd_bind_pure _ _ _
  rw [hdrain]
  exact hloop n.inbox.zipIdx nodes n hget (List.zipIdx_map_fst ..).symm

/-- Handing a message over to its node moves it from the queue into the inbox. -/
theorem view_put (hget : nodes.get? k = some n) (m : M) (queue : List (ι × M)) :
    view (nodes.set k (n.put m)) queue = view nodes ((k, m) :: queue) := by
  obtain ⟨bag, sent, handled, ⟨hbag, hsent, hhandled⟩, hnext⟩ := exists_view hget queue
  obtain ⟨hnodes', hbag', hsent', hhandled'⟩ := hnext (n.put m)
  have hknown : nodes.contains k = true := by rw [OrderedDict.contains, hget, Option.isSome_some]
  have hqueue : (view nodes ((k, m) :: queue)).bag = (k, m) ::ₘ (view nodes queue).bag := by
    rw [view, posted_cons_of_known hknown, Multiset.add_cons, Multiset.cons_add]
    rfl
  have hstate : (view nodes queue).nodes.get? k = some n.state := by
    rw [view, OrderedDict.get?_map, hget, Option.map_some]
  apply Config.ext
  · rw [hnodes']
    exact OrderedDict.set_eq_self hstate
  · rw [hbag', hqueue, hbag, Node.put, addressed_append_singleton, Multiset.add_cons,
      Multiset.cons_add]
  · rw [hsent']
    exact hsent.symm
  · rw [hhandled']
    exact hhandled.symm

theorem view_unknown (hget : nodes.get? k = none) (m : M) (queue : List (ι × M)) :
    view nodes ((k, m) :: queue) = view nodes queue := by
  have hknown : nodes.contains k = false := by rw [OrderedDict.contains, hget, Option.isSome_none]
  rw [view, posted_cons_of_unknown hknown]
  rfl

theorem view_clear {queue queue' : List (ι × M)}
    (h : posted nodes.contains queue' = posted nodes.contains queue +
      gathered (fun _ n => posted nodes.contains n.outbox) nodes) :
    view (nodes.map Node.clear) queue' = view nodes queue := by
  have hgathered : ∀ w w' : ι → Node ι M σ → Multiset (ι × M), (∀ k n, w k n.clear = w' k n) →
      gathered w (nodes.map Node.clear) = gathered w' nodes := by
    intro w w' hw
    rw [gathered, gathered, OrderedDict.map, List.map_map]
    congr 1
    exact List.map_congr_left fun p _ => hw p.1 p.2
  have hzero : gathered (fun _ _ => 0) nodes = (0 : Multiset (ι × M)) := by
    rw [gathered]
    exact List.sum_eq_zero (by simp)
  apply Config.ext
  · exact OrderedDict.map_map ..
  · rw [view, view, OrderedDict.contains_map, hgathered _ (fun _ _ => 0) fun _ _ => rfl,
      hgathered _ (fun k n => addressed k n.inbox) fun _ _ => rfl, h, hzero, zero_add,
      add_comm (posted _ _)]
  · change gathered (fun _ n => posted (nodes.map Node.clear).contains n.sent) _ = _
    rw [OrderedDict.contains_map]
    exact hgathered _ (fun _ n => posted nodes.contains n.sent) fun _ _ => rfl
  · exact hgathered (fun k n => addressed k n.handled) _ fun _ _ => rfl

omit [DecidableEq ι] in
theorem handled_of_local (hx : Local x) (n : Node ι M σ) : (x n).2.handled = n.handled := by
  rw [hx.node]
  rfl

omit [DecidableEq ι] in
theorem length_handled_forEach {receive : M → ℕ → Stateful (Node ι M σ) Unit}
    (hlocal : ∀ m i, Local (receive m i)) {ms : List (M × ℕ)} {n : Node ι M σ}
    (hinbox : n.inbox = ms.map Prod.fst) :
    n.handled.length ≤ (forEach (handleNext receive) ms n).2.handled.length ∧
      (ms ≠ [] → n.handled.length < (forEach (handleNext receive) ms n).2.handled.length) := by
  induction ms generalizing n with
  | nil => exact ⟨le_rfl, fun h => absurd rfl h⟩
  | cons p ms ih =>
    have hbody : handleNext receive p n = receive p.1 p.2 n.pop := rfl
    have hpop : (receive p.1 p.2 n.pop).2.handled = n.handled ++ [p.1] := by
      rw [handled_of_local (hlocal p.1 p.2), Node.pop_of_inbox hinbox]
    have hlength : (receive p.1 p.2 n.pop).2.handled.length = n.handled.length + 1 := by
      rw [hpop, List.length_append, List.length_singleton]
    cases hr : (receive p.1 p.2 n.pop).1 with
    | error e =>
      rw [forEach, bind_of_error (hbody ▸ hr), hbody]
      exact ⟨hlength ▸ Nat.le_succ _, fun _ => hlength ▸ Nat.lt_succ_self _⟩
    | ok _ =>
      have hrest : (receive p.1 p.2 n.pop).2.inbox = ms.map Prod.fst := by
        rw [(hlocal p.1 p.2).node, Node.pop_of_inbox hinbox]
        rfl
      rw [snd_forEach_cons _ (hbody ▸ hr), hbody]
      have hle := (ih hrest).1
      exact ⟨by omega, fun _ => by omega⟩

omit [DecidableEq ι] in
/-- Processing an inbox that is not empty handles a message at least, even if it raises. -/
theorem length_handled_drain {receive : M → ℕ → Stateful (Node ι M σ) Unit}
    (hlocal : ∀ m i, Local (receive m i)) (n : Node ι M σ) :
    n.handled.length ≤ (drain receive n).2.handled.length ∧
      (n.inbox ≠ [] → n.handled.length < (drain receive n).2.handled.length) ∧
      (n.inbox = [] → (drain receive n).1 = .ok ()) := by
  have hdrain : (drain receive n).2 = (forEach (handleNext receive) n.inbox.zipIdx n).2 := by
    rw [drain, reads_bind]
    exact snd_bind_pure _ _ _
  obtain ⟨hle, hlt⟩ := length_handled_forEach hlocal (List.zipIdx_map_fst 0 n.inbox).symm
  rw [hdrain]
  refine ⟨hle, fun hne => hlt fun h => hne (List.zipIdx_eq_nil_iff.mp h), fun hempty => ?_⟩
  rw [drain, reads_bind, hempty]
  rfl

theorem card_handled_view (nodes : OrderedDict ι (Node ι M σ)) (queue : List (ι × M)) :
    Multiset.card (view nodes queue).handled =
      (nodes.values.map fun n => n.handled.length).sum := by
  change Multiset.card (gathered (fun k n => addressed k n.handled) nodes) = _
  rw [gathered, OrderedDict.values, List.map_map]
  induction nodes.items with
  | nil => rfl
  | cons p items ih =>
    rw [List.map_cons, List.map_cons, List.sum_cons, List.sum_cons, Multiset.card_add, ih,
      addressed, Multiset.coe_card, List.length_map]
    rfl

/-- With nothing in the outboxes, the queue and the inboxes nothing is in transit. -/
theorem bag_eq_zero (hout : ∀ n ∈ nodes.values, n.outbox = []) (hin : ∀ n ∈ nodes.values, n.inbox = []) :
    (view nodes []).bag = 0 := by
  have hnone : ∀ w : ι → Node ι M σ → Multiset (ι × M), (∀ k, ∀ n ∈ nodes.values, w k n = 0) →
      gathered w nodes = 0 := by
    intro w hw
    refine List.sum_eq_zero fun m hm => ?_
    obtain ⟨p, hp, rfl⟩ := List.mem_map.mp hm
    exact hw p.1 p.2 (List.mem_map_of_mem hp)
  have houtboxes : gathered (fun _ n => posted nodes.contains n.outbox) nodes = 0 :=
    hnone _ fun k n hn => by rw [hout n hn, posted_nil]
  have hinboxes : gathered (fun k n => addressed k n.inbox) nodes = 0 :=
    hnone _ fun k n hn => by rw [hin n hn]; rfl
  rw [view, houtboxes, hinboxes, posted_nil]
  rfl

end

end Mailbox
