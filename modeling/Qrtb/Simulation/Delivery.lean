import Qrtb.Lib.DoubleOrder
import Qrtb.Simulation.Routing

/-!
# Messages are delivered when they are due (`src/network.py`)

Delivering stops at the first message of the queue that is not due, which loses no
time as long as the queue is sorted. It is after every routing, and every command
keeps it so, for readings of the clock that can be compared.
-/

namespace Qrtb.Routed

open PyFloat Stateful Mailbox Transition

/-- The numbers that are times, ordered as the values they stand for. -/
structure Clock (F : Type) [PyFloat F] where
  IsTime : F → Prop
  value : F → ℚ
  lt_iff : ∀ a b, IsTime a → IsTime b → (lt a b = true ↔ value a < value b)
  le_iff : ∀ a b, IsTime a → IsTime b → (le a b = true ↔ value a ≤ value b)

variable {F : Type} [PyFloat F]

def Letter.Due (now : F) (l : Letter F) : Bool := le l.deliveryTime now

/-- The queue in the order of the times, each message for a validator of the network. -/
structure Orderly (K : Clock F) (t : QRTBTestnet F) : Prop where
  times : ∀ l ∈ t.messageQueue, K.IsTime l.deliveryTime
  sorted : t.messageQueue.Pairwise fun l l' => K.value l.deliveryTime ≤ K.value l'.deliveryTime
  known : ∀ l ∈ t.messageQueue, t.validators.contains l.target = true

variable {K : Clock F} {t : QRTBTestnet F}

theorem deliverQueue_queue (now : F) (queue : List (Letter F)) (validators : Validators F) :
    (QRTBTestnet.deliverQueue now queue validators).2.1 = queue.dropWhile (Letter.Due now) := by
  induction queue generalizing validators with
  | nil => rfl
  | cons l queue ih =>
    rw [QRTBTestnet.deliverQueue, List.dropWhile_cons, Letter.Due]
    split_ifs with hdue
    · cases validators.get? l.target with
      | none => exact ih validators
      | some target => exact ih _
    · rfl

theorem deliverQueue_contains (now : F) (queue : List (Letter F)) (validators : Validators F) :
    (QRTBTestnet.deliverQueue now queue validators).2.2.contains = validators.contains := by
  induction queue generalizing validators with
  | nil => rfl
  | cons l queue ih =>
    rw [QRTBTestnet.deliverQueue]
    split_ifs with hdue
    · cases hget : validators.get? l.target with
      | none => exact ih validators
      | some target => exact (ih _).trans (OrderedDict.contains_set_of_get? hget _)
    · rfl

/-- As many messages are delivered as there are due ones in front, when all have a target. -/
theorem deliverQueue_count (now : F) (queue : List (Letter F)) (validators : Validators F)
    (hknown : ∀ l ∈ queue, validators.contains l.target = true) :
    (QRTBTestnet.deliverQueue now queue validators).1 =
      (queue.takeWhile (Letter.Due now)).length := by
  induction queue generalizing validators with
  | nil => rfl
  | cons l queue ih =>
    obtain ⟨hl, hqueue⟩ := List.forall_mem_cons.mp hknown
    rw [QRTBTestnet.deliverQueue, List.takeWhile_cons, Letter.Due]
    split_ifs with hdue
    · cases hget : validators.get? l.target with
      | none =>
        rw [OrderedDict.contains, hget] at hl
        cases hl
      | some target =>
        have hrest := ih (validators.set l.target (target.put l.message)) (by
          rwa [OrderedDict.contains_set_of_get? hget])
        simp only [hrest, List.length_cons]
    · rfl

/-- The messages for a validator among some letters, in their order. -/
def messagesFor (vid : Bytes) (queue : List (Letter F)) : List (Message F) :=
  (queue.filter fun l => l.target = vid).map Letter.message

/-- The due messages in front are appended to the inboxes, and nothing else happens to a node. -/
theorem deliverQueue_get? (now : F) (queue : List (Letter F)) (validators : Validators F)
    {vid : Bytes} {node : ValidatorNode F} (hget : validators.get? vid = some node) :
    (QRTBTestnet.deliverQueue now queue validators).2.2.get? vid =
      some { node with
        inbox := node.inbox ++ messagesFor vid (queue.takeWhile (Letter.Due now)) } := by
  induction queue generalizing validators node with
  | nil => simp [QRTBTestnet.deliverQueue, messagesFor, hget]
  | cons l queue ih =>
    rw [QRTBTestnet.deliverQueue, List.takeWhile_cons, Letter.Due]
    split_ifs with hdue
    · by_cases htarget : l.target = vid
      · subst htarget
        simp only [hget]
        rw [ih _ (OrderedDict.get?_set_self ..)]
        simp [messagesFor, Node.put]
      · have hskip : messagesFor vid (l :: queue.takeWhile (Letter.Due now)) =
            messagesFor vid (queue.takeWhile (Letter.Due now)) := by simp [messagesFor, htarget]
        cases hother : validators.get? l.target with
        | none => exact (ih _ hget).trans (by rw [← hskip])
        | some target =>
          have hkeep : (validators.set l.target (target.put l.message)).get? vid = some node := by
            rw [OrderedDict.get?_set_of_ne _ (Ne.symm htarget), hget]
          exact (ih _ hkeep).trans (by rw [← hskip])
    · simp [messagesFor, hget]

theorem Orderly.takeWhile_eq (h : Orderly K t) {now : F} (hnow : K.IsTime now) :
    t.messageQueue.takeWhile (Letter.Due now) = t.messageQueue.filter (Letter.Due now) ∧
      t.messageQueue.dropWhile (Letter.Due now) =
        t.messageQueue.filter fun l => !(l.Due now) := by
  obtain ⟨htimes, hsorted, -⟩ := h
  revert htimes hsorted
  generalize t.messageQueue = queue
  intro htimes hsorted
  induction queue with
  | nil => exact ⟨rfl, rfl⟩
  | cons l queue ih =>
    obtain ⟨hl, hqueue⟩ := List.forall_mem_cons.mp htimes
    obtain ⟨hfirst, hrest⟩ := List.pairwise_cons.mp hsorted
    obtain ⟨htake, hdrop⟩ := ih hqueue hrest
    cases hdue : l.Due now with
    | true =>
      rw [List.takeWhile_cons_of_pos hdue, List.dropWhile_cons_of_pos hdue, htake, hdrop,
        List.filter_cons_of_pos hdue, List.filter_cons_of_neg (by simp [hdue])]
      exact ⟨rfl, rfl⟩
    | false =>
      have hlate : ∀ l' ∈ queue, l'.Due now = false := by
        intro l' hl'
        rw [Letter.Due, ← Bool.not_eq_true, K.le_iff _ _ (hqueue l' hl') hnow]
        rw [Letter.Due, ← Bool.not_eq_true, K.le_iff _ _ hl hnow] at hdue
        exact fun hle => hdue ((hfirst l' hl').trans hle)
      have hnone : queue.filter (Letter.Due now) = [] := by
        rw [List.filter_eq_nil_iff]
        intro l' hl'
        rw [hlate l' hl']
        exact Bool.false_ne_true
      have hall : (queue.filter fun l => !(l.Due now)) = queue := by
        rw [List.filter_eq_self]
        intro l' hl'
        rw [hlate l' hl', Bool.not_false]
      have hnot : ¬ l.Due now = true := by rw [hdue]; exact Bool.false_ne_true
      rw [List.takeWhile_cons_of_neg hnot, List.dropWhile_cons_of_neg hnot,
        List.filter_cons_of_neg hnot, List.filter_cons_of_pos (by simp [hdue]), hnone, hall]
      exact ⟨rfl, rfl⟩

theorem contains_exec (command : Command F) (t : QRTBTestnet F) :
    (exec command t).validators.contains = t.validators.contains := by
  cases command with
  | act vid action =>
    have hcall : (exec (.act vid action) t).validators =
        (OrderedDict.call vid (perform action) t.validators).2 := rfl
    rw [hcall, OrderedDict.call]
    cases hget : t.validators.get? vid with
    | none => rfl
    | some node => exact OrderedDict.contains_set_of_get? hget _
  | route conditions => exact OrderedDict.contains_map ..
  | deliver now => exact deliverQueue_contains now t.messageQueue t.validators
  | process clock =>
    rw [exec_process]
    refine OrderedDict.forValues_induction
      (R := fun d d' : Validators F => d'.contains = d.contains) (fun _ => rfl)
      (fun _ _ _ h h' => h'.trans h) ?_ t.validators
    exact fun d vid node hget => OrderedDict.contains_set_of_get? hget _

theorem known_letters {c : Conditions F} {l : Letter F} (hl : l ∈ t.letters c) :
    t.validators.contains l.target = true := by
  obtain ⟨p, -, hl⟩ := List.mem_flatMap.mp hl
  obtain ⟨q, -, hq⟩ := List.mem_filterMap.mp hl
  obtain ⟨target, htarget, rfl⟩ := Option.map_eq_some_iff.mp hq
  rw [OrderedDict.contains, htarget, Option.isSome_some]

theorem Orderly.routeMessages (h : Orderly K t) {c : Conditions F}
    (hc : ∀ l ∈ t.letters c, K.IsTime l.deliveryTime) : Orderly K (t.routeMessages c) := by
  have hmem : ∀ l ∈ (t.routeMessages c).messageQueue, l ∈ t.messageQueue ∨ l ∈ t.letters c :=
    fun l hl => List.mem_append.mp ((List.mem_insertionSort _).mp hl)
  have htimes : ∀ l ∈ t.messageQueue ++ t.letters c, K.IsTime l.deliveryTime := by
    intro l hl
    exact (List.mem_append.mp hl).elim (h.times l) (hc l)
  refine ⟨fun l hl => (hmem l hl).elim (h.times l) (hc l), ?_, ?_⟩
  · have hvalues := List.map_insertionSort
      (fun l l' : Letter F => (!lt l'.deliveryTime l.deliveryTime) = true) (· ≤ ·)
      (fun l => K.value l.deliveryTime) (t.messageQueue ++ t.letters c) (by
        intro l hl l' hl'
        rw [Bool.not_eq_true', ← Bool.not_eq_true, K.lt_iff _ _ (htimes l' hl') (htimes l hl),
          not_lt])
    have hpairwise := List.pairwise_insertionSort (· ≤ ·)
      ((t.messageQueue ++ t.letters c).map fun l => K.value l.deliveryTime)
    rw [← hvalues, List.pairwise_map] at hpairwise
    exact hpairwise
  · intro l hl
    rw [show (t.routeMessages c).validators.contains = t.validators.contains from
      OrderedDict.contains_map ..]
    exact (hmem l hl).elim (h.known l) known_letters

def Command.letters : Command F → QRTBTestnet F → List (Letter F)
  | .route c, t => t.letters c
  | _, _ => []

/-- The letters that are written in a run. -/
def written : List (Command F) → QRTBTestnet F → List (Letter F)
  | [], _ => []
  | command :: commands, t => command.letters t ++ written commands (exec command t)

theorem Orderly.exec (h : Orderly K t) {command : Command F}
    (htimes : ∀ l ∈ command.letters t, K.IsTime l.deliveryTime) :
    Orderly K (Routed.exec command t) := by
  cases command with
  | act vid action =>
    refine ⟨h.times, h.sorted, ?_⟩
    rw [contains_exec]
    exact h.known
  | route c => exact h.routeMessages htimes
  | deliver now =>
    have hqueue : (Routed.exec (.deliver now) t).messageQueue =
        t.messageQueue.dropWhile (Letter.Due now) := deliverQueue_queue now _ t.validators
    have hsub := List.dropWhile_sublist (l := t.messageQueue) (Letter.Due now)
    refine ⟨?_, ?_, ?_⟩
    · rw [hqueue]
      exact fun l hl => h.times l (hsub.subset hl)
    · rw [hqueue]
      exact h.sorted.sublist hsub
    · rw [hqueue, contains_exec]
      exact fun l hl => h.known l (hsub.subset hl)
  | process clock =>
    have hqueue : (Routed.exec (.process clock) t).messageQueue = t.messageQueue := by
      rw [exec_process]
    refine ⟨?_, ?_, ?_⟩
    · rw [hqueue]
      exact h.times
    · rw [hqueue]
      exact h.sorted
    · rw [hqueue, contains_exec]
      exact h.known

theorem Orderly.runs {commands : List (Command F)} (h : Orderly K t)
    (htimes : ∀ l ∈ written commands t, K.IsTime l.deliveryTime) :
    Orderly K (Transition.runs Routed.exec commands t) := by
  induction commands generalizing t with
  | nil => exact h
  | cons command commands ih =>
    obtain ⟨hfirst, hrest⟩ := List.forall_mem_append.mp htimes
    exact ih (h.exec hfirst) hrest

/-- At any point of a run that has written its letters for times, delivering hands over exactly the
messages that are due, each to the inbox of its validator and the earlier ones first, and leaves the
others in the queue. -/
theorem due_messages_delivered (K : Clock F) (messageDelayMs : F)
    (nodes : OrderedDict Bytes (NodeState F)) {commands : List (Command F)}
    (htimes : ∀ l ∈ written commands (QRTBTestnet.fresh messageDelayMs nodes),
      K.IsTime l.deliveryTime) {now : F} (hnow : K.IsTime now) :
    let t := Transition.runs Routed.exec commands (QRTBTestnet.fresh messageDelayMs nodes)
    let r := t.deliverMessages now
    let due := t.messageQueue.filter (Letter.Due now)
    due.Pairwise (fun l l' => K.value l.deliveryTime ≤ K.value l'.deliveryTime) ∧
      r.1 = due.length ∧
      r.2.messageQueue = t.messageQueue.filter (fun l => !(l.Due now)) ∧
      ∀ vid node, t.validators.get? vid = some node →
        r.2.validators.get? vid = some { node with inbox := node.inbox ++ messagesFor vid due } := by
  intro t r due
  have hfresh : Orderly K (QRTBTestnet.fresh messageDelayMs nodes) :=
    ⟨List.forall_mem_nil _, .nil, List.forall_mem_nil _⟩
  have h : Orderly K t := hfresh.runs htimes
  obtain ⟨htake, hdrop⟩ := h.takeWhile_eq hnow
  refine ⟨h.sorted.filter _, ?_, ?_, ?_⟩
  · have hcount := deliverQueue_count now t.messageQueue t.validators h.known
    rwa [htake] at hcount
  · have hqueue := deliverQueue_queue now t.messageQueue t.validators
    rwa [hdrop] at hqueue
  · intro vid node hget
    have hinbox := deliverQueue_get? now t.messageQueue t.validators hget
    rwa [htake] at hinbox

section Example

def exampleId (i : ℕ) : Bytes := List.replicate 32 (UInt8.ofNat i)

def exampleIds : List Bytes := [1, 2, 3, 4, 5].map exampleId

/-- The proposer of the epoch is the validator with the least stake. -/
def exampleStake (vid : Bytes) : ℤ := if vid = exampleId 5 then 1 else 25

variable (F)

def exampleConfig (vid : Bytes) : ValidatorConfig F where
  zoneId := 0
  stake := exampleStake vid
  location := (literal 0, literal 0)

def exampleEngine (me : Bytes) : BFTConsensus F :=
  exampleIds.foldl (fun c vid => c.registerValidator vid (exampleStake vid))
    (.init me (exampleStake me))

def exampleState (me : Bytes) : NodeState F where
  node :=
    { temporalKey := .create me
      epochManager := .init (literal 0) []
      measurementProtocol := { validatorId := me }
      consensus := (exampleEngine F me).startRound 88 0
      validatorId := me
      config := exampleConfig F me
      isAdversary := false
      peers := .ofKeys (exampleConfig F) (exampleIds.filter fun vid => vid ≠ me) }

def exampleNodes : OrderedDict Bytes (NodeState F) := .ofKeys (exampleState F) exampleIds

variable {F}

/-- No jitter, no distance, and a clock that stands still. -/
def exampleConditions : Conditions ℚ where
  haversineDistanceKm _ _ := 0
  gauss _ _ mean _ := mean
  time _ _ := 0

def exampleProposing : List (Command ℚ) :=
  [.act (exampleId 5) (.runConsensusPhase 0), .route exampleConditions]

def doubleClock : Clock Float.Model where
  IsTime x := x.isFinite = true
  value := Binary64.toRat
  lt_iff _ _ := Binary64.lt_iff_toRat
  le_iff _ _ := Binary64.le_iff_toRat

/-- The proposal goes to one validator after the other, a second apart. -/
def slowProposing : List (Command Float.Model) :=
  [.act (exampleId 5) (.runConsensusPhase (literal 0)),
    .route
      { haversineDistanceKm := fun _ _ => literal 1000
        gauss := fun _ _ mean _ => mean
        time := fun _ i => literal i }]

theorem due_messages_delivered_proposal :
    let t := Transition.runs Routed.exec slowProposing
      (QRTBTestnet.fresh (literal 20) (exampleNodes Float.Model))
    (t.deliverMessages (literal 1.5)).1 = 2 ∧
      (t.deliverMessages (literal 1.5)).2.messageQueue.length = 2 := by
  intro t
  have htimes : ∀ l ∈ written slowProposing (QRTBTestnet.fresh (literal 20)
      (exampleNodes Float.Model)), doubleClock.IsTime l.deliveryTime := by
    have hfinite : ∀ l ∈ written slowProposing (QRTBTestnet.fresh (literal 20)
      (exampleNodes Float.Model)), l.deliveryTime.isFinite = true := by decide +kernel
    exact hfinite
  have hnow : doubleClock.IsTime (literal 1.5) := by
    have hfinite : (literal 1.5 : Float.Model).isFinite = true := by decide +kernel
    exact hfinite
  obtain ⟨-, hcount, hqueue, -⟩ := due_messages_delivered doubleClock (literal 20)
    (exampleNodes Float.Model) htimes hnow
  rw [hcount, hqueue]
  decide +kernel

end Example

end Qrtb.Routed
