import Qrtb.Simulation.Inbox
import Mathlib.Data.List.Sort

/-!
# The message queue of the simulated network (`src/network.py`)

Routing collects the outboxes into one queue, each message with the time it is due,
and delivering hands the due ones over to the inboxes. The clock and the jitter are
read for each message. Whatever a run does in whatever order, it is seen from
outside as a run of nodes with a bag of messages between them: nothing is lost,
nothing is doubled, and nothing is handled by a node it was not sent to.
-/

namespace Qrtb.Routed

open PyFloat Stateful Mailbox AsyncNetwork Transition

structure Letter (F : Type) where
  deliveryTime : F
  sender : Bytes
  target : Bytes
  message : Message F

abbrev Validators (F : Type) := OrderedDict Bytes (ValidatorNode F)

structure QRTBTestnet (F : Type) where
  messageDelayMs : F
  validators : Validators F := ∅
  messageQueue : List (Letter F) := []

/-- What routing reads for the messages of a node, by their place in the outbox. -/
structure Conditions (F : Type) where
  haversineDistanceKm : F × F → F × F → F
  /-- `random.gauss` of a mean and a deviation. -/
  gauss : Bytes → ℕ → F → F → F
  time : Bytes → ℕ → F

variable {F : Type}

def Letter.addressed (l : Letter F) : Bytes × Message F := (l.target, l.message)

section

variable [PyFloat F]

/-- Half the round trip at the speed of light, with jitter, and no less than the configured delay. -/
def calculateDelay (c : Conditions F) (gauss : F → F → F) (messageDelayMs : F)
    (sender target : ValidatorNode F) : F :=
  let distance := c.haversineDistanceKm sender.state.node.config.location
    target.state.node.config.location
  let theoretical := div (Testnet.theoreticalRttMs distance) (literal 2)
  let actual := mul theoretical (gauss (literal 1) (literal 0.1))
  if lt messageDelayMs actual then actual else messageDelayMs

namespace QRTBTestnet

/-- The letters of one node; a message for an unknown node is dropped. -/
def lettersOf (c : Conditions F) (t : QRTBTestnet F) (vid : Bytes) (node : ValidatorNode F) :
    List (Letter F) :=
  node.outbox.zipIdx.filterMap fun p =>
    (t.validators.get? p.1.1).map fun target =>
      let delay := calculateDelay c (c.gauss vid p.2) t.messageDelayMs node target
      { deliveryTime := add (c.time vid p.2) (div delay (literal 1000))
        sender := vid
        target := p.1.1
        message := p.1.2 }

def letters (c : Conditions F) (t : QRTBTestnet F) : List (Letter F) :=
  t.validators.items.flatMap fun p => t.lettersOf c p.1 p.2

/-- The queue is sorted by the times the messages are due. -/
def routeMessages (c : Conditions F) (t : QRTBTestnet F) : QRTBTestnet F :=
  { t with
    validators := t.validators.map Node.clear
    messageQueue := (t.messageQueue ++ t.letters c).insertionSort
      fun l l' => (!lt l'.deliveryTime l.deliveryTime) = true }

/-- The queue from its front, up to the first message that is not due. -/
def deliverQueue (now : F) : List (Letter F) → Validators F → ℕ × List (Letter F) × Validators F
  | [], validators => (0, [], validators)
  | l :: queue, validators =>
    if le l.deliveryTime now then
      match validators.get? l.target with
      | none => deliverQueue now queue validators
      | some target =>
        let rest := deliverQueue now queue (validators.set l.target (target.put l.message))
        (rest.1 + 1, rest.2)
    else (0, l :: queue, validators)

def deliverMessages (now : F) (t : QRTBTestnet F) : ℕ × QRTBTestnet F :=
  let r := deliverQueue now t.messageQueue t.validators
  (r.1, { t with messageQueue := r.2.1, validators := r.2.2 })

def onValidators {α : Type} (x : Stateful (Validators F) α) : Stateful (QRTBTestnet F) α :=
  on validators (fun v t => { t with validators := v }) x

def processAllInboxes (clock : Bytes → ℕ → F) : Stateful (QRTBTestnet F) Unit := do
  let _ ← onValidators (OrderedDict.forValues fun vid => processInbox (clock vid))

end QRTBTestnet

inductive Command (F : Type) where
  | act (node : Bytes) (action : Action F)
  | route (conditions : Conditions F)
  | deliver (now : F)
  | process (clock : Bytes → ℕ → F)

/-- The network after a command, whether it returned or raised. -/
def exec : Command F → QRTBTestnet F → QRTBTestnet F
  | .act vid action, t => (QRTBTestnet.onValidators (OrderedDict.call vid (perform action)) t).2
  | .route conditions, t => t.routeMessages conditions
  | .deliver now, t => (t.deliverMessages now).2
  | .process clock, t => (QRTBTestnet.processAllInboxes clock t).2

/-- The nodes as they react to a message, read with a time, and act. -/
def system : System Bytes (NodeState F) (Message F) F (Action F) where
  handle message time := reaction (receive message time)
  act action := reaction (perform action)

def QRTBTestnet.view (t : QRTBTestnet F) : Config Bytes (NodeState F) (Message F) :=
  Mailbox.view t.validators (t.messageQueue.map Letter.addressed)

/-- The letters of a node carry the messages of its outbox that have a target. -/
theorem map_lettersOf (c : Conditions F) (t : QRTBTestnet F) (vid : Bytes)
    (node : ValidatorNode F) :
    (t.lettersOf c vid node).map Letter.addressed =
      node.outbox.filter fun l => t.validators.contains l.1 := by
  have hletter : ∀ p : (Bytes × Message F) × ℕ,
      ((t.validators.get? p.1.1).map fun target =>
        ({ deliveryTime := add (c.time vid p.2)
             (div (calculateDelay c (c.gauss vid p.2) t.messageDelayMs node target) (literal 1000))
           sender := vid, target := p.1.1, message := p.1.2 } : Letter F)).map Letter.addressed =
        if t.validators.contains p.1.1 then some p.1 else none := by
    intro p
    rw [OrderedDict.contains]
    cases t.validators.get? p.1.1 with
    | none => rfl
    | some target => rfl
  calc (t.lettersOf c vid node).map Letter.addressed
      = node.outbox.zipIdx.filterMap
          fun p => if t.validators.contains p.1.1 then some p.1 else none := by
        rw [QRTBTestnet.lettersOf, List.map_filterMap]
        exact List.filterMap_congr fun p _ => hletter p
    _ = (node.outbox.zipIdx.map Prod.fst).filterMap
          fun l => if t.validators.contains l.1 then some l else none := by
        rw [List.filterMap_map]
        rfl
    _ = node.outbox.filter fun l => t.validators.contains l.1 := by
        rw [List.zipIdx_map_fst, ← List.filterMap_eq_filter]
        rfl

theorem posted_letters (c : Conditions F) (t : QRTBTestnet F) :
    posted t.validators.contains ((t.letters c).map Letter.addressed) =
      gathered (fun _ n => posted t.validators.contains n.outbox) t.validators := by
  rw [QRTBTestnet.letters, gathered]
  induction t.validators.items with
  | nil => rfl
  | cons p items ih =>
    rw [List.flatMap_cons, List.map_append, posted_append, List.map_cons, List.sum_cons, ih,
      map_lettersOf, posted, posted, List.filter_filter]
    simp only [Bool.and_self]

theorem view_routeMessages (c : Conditions F) (t : QRTBTestnet F) :
    (t.routeMessages c).view = t.view := by
  apply view_clear
  rw [← posted_letters c t, ← posted_append, ← List.map_append]
  have hperm := ((t.messageQueue ++ t.letters c).perm_insertionSort
    fun l l' => (!lt l'.deliveryTime l.deliveryTime) = true).map Letter.addressed
  exact Multiset.coe_eq_coe.mpr (hperm.filter _)

theorem view_deliverQueue (now : F) (queue : List (Letter F)) (validators : Validators F) :
    Mailbox.view (QRTBTestnet.deliverQueue now queue validators).2.2
        ((QRTBTestnet.deliverQueue now queue validators).2.1.map Letter.addressed) =
      Mailbox.view validators (queue.map Letter.addressed) := by
  induction queue generalizing validators with
  | nil => rfl
  | cons l queue ih =>
    rw [QRTBTestnet.deliverQueue]
    split_ifs with hdue
    · cases hget : validators.get? l.target with
      | none =>
        simp only
        rw [ih, List.map_cons, Letter.addressed, view_unknown hget]
      | some target =>
        simp only
        rw [ih, List.map_cons, Letter.addressed, view_put hget]
    · rfl

/-- The steps a command is made of: the one action, or messages handled at the times read. -/
def Command.Covers : Command F → Label Bytes (Message F) F (Action F) → Prop
  | .act vid action, l => l = .act vid action
  | .process clock, l => ∃ vid message i, l = .handle vid message (clock vid i)
  | _, _ => False

theorem run_processInbox (clock : Bytes → ℕ → F) {validators : Validators F} {vid : Bytes}
    {node : ValidatorNode F} (hget : validators.get? vid = some node)
    (queue : List (Bytes × Message F)) :
    ∃ labels, (∀ l ∈ labels, (Command.process clock).Covers l) ∧
      Run (Step system) (Mailbox.view validators queue) labels
        (Mailbox.view (validators.set vid (processInbox (clock vid) node).2) queue) := by
  have hsystem : ∀ message i, system.handle message (clock vid i) =
      reaction (receive message (clock vid i)) := fun _ _ => rfl
  obtain ⟨labels, hlabels, hrun⟩ :=
    run_drain hsystem (fun message i => local_receive message (clock vid i)) hget queue
  exact ⟨labels, fun l hl => ⟨vid, hlabels l hl⟩, hrun⟩

theorem exec_process (clock : Bytes → ℕ → F) (t : QRTBTestnet F) :
    exec (.process clock) t = { t with validators :=
      (OrderedDict.forValues (fun vid => processInbox (clock vid)) t.validators).2 } := by
  rw [exec, QRTBTestnet.processAllInboxes, snd_bind_pure]
  rfl

theorem run_exec (command : Command F) (t : QRTBTestnet F) :
    ∃ labels, (∀ l ∈ labels, command.Covers l) ∧
      Run (Step system) t.view labels (exec command t).view := by
  cases command with
  | act vid action =>
    have hcall : exec (.act vid action) t =
        { t with validators := (OrderedDict.call vid (perform action) t.validators).2 } := rfl
    rw [hcall, OrderedDict.call]
    cases hget : t.validators.get? vid with
    | none => exact ⟨[], List.forall_mem_nil _, .nil _⟩
    | some node =>
      exact ⟨[.act vid action], List.forall_mem_singleton.mpr rfl,
        .single (step_act rfl (local_perform action) hget _)⟩
  | route conditions =>
    refine ⟨[], List.forall_mem_nil _, ?_⟩
    rw [exec, view_routeMessages]
    exact .nil _
  | deliver now =>
    have hview : (exec (.deliver now) t).view = t.view :=
      view_deliverQueue now t.messageQueue t.validators
    refine ⟨[], List.forall_mem_nil _, ?_⟩
    rw [hview]
    exact .nil _
  | process clock =>
    rw [exec_process]
    refine OrderedDict.forValues_induction
      (R := fun d d' => ∃ labels, (∀ l ∈ labels, (Command.process clock).Covers l) ∧
        Run (Step system) (Mailbox.view d (t.messageQueue.map Letter.addressed)) labels
          (Mailbox.view d' (t.messageQueue.map Letter.addressed))) ?_ ?_ ?_ t.validators
    · exact fun d => ⟨[], List.forall_mem_nil _, .nil _⟩
    · rintro d e g ⟨ls, hls, hrun⟩ ⟨ls', hls', hrun'⟩
      exact ⟨ls ++ ls', List.forall_mem_append.mpr ⟨hls, hls'⟩, hrun.append hrun'⟩
    · exact fun d vid node hget => run_processInbox clock hget _

theorem run_runs (commands : List (Command F)) (t : QRTBTestnet F) :
    ∃ labels, (∀ l ∈ labels, ∃ command ∈ commands, command.Covers l) ∧
      Run (Step system) t.view labels (runs exec commands t).view := by
  induction commands using List.reverseRecOn with
  | nil => exact ⟨[], List.forall_mem_nil _, .nil _⟩
  | append_singleton commands command ih =>
    obtain ⟨labels, hlabels, hrun⟩ := ih
    obtain ⟨labels', hlabels', hrun'⟩ := run_exec command (runs exec commands t)
    rw [runs_append_singleton]
    refine ⟨labels ++ labels', ?_, hrun.append hrun'⟩
    intro l hl
    rcases List.mem_append.mp hl with h | h
    · obtain ⟨command', hmem, hcovers⟩ := hlabels l h
      exact ⟨command', List.mem_append_left _ hmem, hcovers⟩
    · exact ⟨command, List.mem_append_right _ (List.mem_singleton_self _), hlabels' l h⟩

/-- A network of nodes that have not sent and not received anything. -/
def QRTBTestnet.fresh (messageDelayMs : F) (nodes : OrderedDict Bytes (NodeState F)) :
    QRTBTestnet F where
  messageDelayMs := messageDelayMs
  validators := nodes.map fun state => { state := state }

omit [PyFloat F] in
theorem view_fresh (messageDelayMs : F) (nodes : OrderedDict Bytes (NodeState F)) :
    (QRTBTestnet.fresh messageDelayMs nodes).view = ⟨nodes, 0, 0, 0⟩ := by
  have hnone : ∀ w : Bytes → ValidatorNode F → Multiset (Bytes × Message F),
      (∀ k s, w k { state := s } = 0) →
        gathered w (QRTBTestnet.fresh messageDelayMs nodes).validators = 0 := by
    intro w hw
    rw [gathered, QRTBTestnet.fresh, OrderedDict.map, List.map_map]
    refine List.sum_eq_zero fun m hm => ?_
    obtain ⟨p, -, rfl⟩ := List.mem_map.mp hm
    exact hw p.1 p.2
  apply Config.ext
  · rw [QRTBTestnet.view, Mailbox.view, QRTBTestnet.fresh, OrderedDict.map_map]
    apply OrderedDict.eq_of_items
    simp [OrderedDict.map]
  · rw [QRTBTestnet.view, Mailbox.view, hnone _ fun _ _ => rfl, hnone _ fun _ _ => rfl]
    rfl
  · exact hnone (fun _ n => posted _ n.sent) fun _ _ => rfl
  · exact hnone (fun k n => addressed k n.handled) fun _ _ => rfl

/-- Whatever the commands, their order and their exceptions, the routed network does what nodes with
a bag of messages between them can do, and each message that was sent to a validator lies in one
outbox, in the queue or in one inbox, or was handled by its validator, as often as it was sent. -/
theorem messages_conserved (messageDelayMs : F) (nodes : OrderedDict Bytes (NodeState F))
    (commands : List (Command F)) :
    let t := runs exec commands (QRTBTestnet.fresh messageDelayMs nodes)
    (∃ labels, Run (Step system) ⟨nodes, 0, 0, 0⟩ labels t.view) ∧
      t.view.bag + t.view.handled = t.view.sent := by
  intro t
  obtain ⟨labels, -, hrun⟩ := run_runs commands (QRTBTestnet.fresh messageDelayMs nodes)
  rw [view_fresh] at hrun
  have hempty : (⟨nodes, 0, 0, 0⟩ : Config Bytes (NodeState F) (Message F)).Balanced := rfl
  exact ⟨⟨labels, hrun⟩, hempty.run hrun⟩

end

end Qrtb.Routed
