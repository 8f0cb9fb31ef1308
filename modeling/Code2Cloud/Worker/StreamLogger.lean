import Code2Cloud.Api.Logs
import Code2Cloud.Base.Slices
import Code2Cloud.Worker.Scanner

/-!
# The stream logger

`StreamLogger` with its buffer, the batches it hands off to goroutines, its timer and
`Close`, and the rows that the API stores for the batches it is sent.
-/

namespace Code2Cloud
namespace Worker
namespace StreamLogger

open Api

/-- The fields of `logging.Config`, and the deployment a logger is for. -/
structure Config where
  deploymentId : DeploymentId
  batchSize : Nat
  /-- In milliseconds. -/
  flushInterval : Nat
  source : Logs.LogSource
  linePrefix : GoString

/-- Where a batch is on its way through `sendToAPI`. -/
inductive Phase
  /-- Its goroutine has not called `SendLogs` yet. -/
  | ready
  /-- `SaveLogsRaw` has taken the time. -/
  | sending (stamped : Nat)
  /-- The API has stored its rows. -/
  | saved
  /-- `SendLogs` has returned. -/
  | returned
  deriving DecidableEq

structure Batch where
  /-- The slice that is passed to `SendLogs`. -/
  logs : Slice
  /-- The messages at the time of the hand-off. -/
  contents : List GoString
  /-- The source of `LogWithSource`.  A goroutine reads the logger's when it runs. -/
  source : Option Logs.LogSource
  phase : Phase
  deriving DecidableEq

structure SendLogs where
  batch : Nat
  source : Logs.LogSource
  messages : List GoString
  deriving DecidableEq

inductive AutoFlush
  | waiting
  /-- It has received from the timer's channel and goes on to take the lock. -/
  | fired
  | exited
  deriving DecidableEq

/-- How far `Close` is. -/
inductive Closing
  | running
  /-- `sl.cancel()` -/
  | cancelled
  /-- `sl.flushTimer.Stop()` -/
  | stopped
  /-- `sl.wg.Wait()` -/
  | waited
  | returned
  deriving DecidableEq

/-- A stored row, with the number of its message in the order in which they were logged. -/
structure Row where
  position : Nat
  entry : Logs.LogEntry
  deriving DecidableEq

structure State where
  now : Nat
  source : Logs.LogSource
  linePrefix : GoString
  heap : Heap GoString
  buffer : Slice
  lastFlush : Nat
  /-- When the timer fires, if it is armed. -/
  deadline : Option Nat
  autoFlush : AutoFlush
  closing : Closing
  /-- The number of batches that had been handed off when `Close` had waited. -/
  waited : Nat
  /-- The batch that `LogWithSource` sends while it holds the lock. -/
  holder : Option Nat
  batches : List Batch
  calls : List SendLogs
  /-- The messages logged so far. -/
  logged : List GoString
  rows : List Row

inductive Event
  | tick (milliseconds : Nat)
  | write (p : GoString)
  | log (message : GoString)
  | logWithSource (source : Logs.LogSource) (message : GoString)
  | flush
  | setSource (source : Logs.LogSource)
  | setPrefix (linePrefix : GoString)
  /-- A goroutine of `flushLocked` calls `SendLogs`. -/
  | send (i : Nat)
  /-- The API stores the rows of a batch. -/
  | save (i : Nat)
  /-- A call of `SendLogs` returns, with an error if nothing was stored. -/
  | ret (i : Nat)
  /-- The timer's goroutine receives from the channel. -/
  | fire
  /-- It takes the lock, flushes if there is something to flush, and resets the timer. -/
  | autoFlush
  /-- It sees that the context is done. -/
  | exit
  /-- `Close` goes on by one statement. -/
  | close
  deriving DecidableEq

variable (config : Config) (spare : List GoString → List GoString)

/-- `NewStreamLogger` -/
def State.initial (now : Nat) : State where
  now
  source := config.source
  linePrefix := config.linePrefix
  heap := [List.replicate config.batchSize []]
  buffer := { array := 0, length := 0 }
  lastFlush := now
  deadline := some (now + config.flushInterval)
  autoFlush := .waiting
  closing := .running
  waited := 0
  holder := none
  batches := []
  calls := []
  logged := []
  rows := []

namespace State

def prefixed (s : State) (line : GoString) : GoString :=
  if s.linePrefix ≠ [] then s.linePrefix ++ line else line

/-- `sl.buffer = append(sl.buffer, line)` -/
def add (s : State) (line : GoString) : State :=
  { s with
    heap := (s.heap.append spare s.buffer line).1
    buffer := (s.heap.append spare s.buffer line).2
    logged := s.logged ++ [line] }

def addAll (s : State) (lines : List GoString) : State := lines.foldl (add spare) s

/-- A slice of new messages is handed off. -/
def handOff (s : State) (contents : List GoString) (source : Option Logs.LogSource)
    (phase : Phase) : State :=
  { s with
    heap := s.heap.alloc contents
    batches := s.batches ++
      [{ logs := s.heap.fresh contents.length, contents, source, phase }] }

def flushLocked (s : State) : State :=
  if s.buffer.length = 0 then s
  else
    { s.handOff (s.heap.read s.buffer) none .ready with
      buffer := s.buffer.clear
      lastFlush := s.now }

def flushIfFull (s : State) : State :=
  if config.batchSize ≤ s.buffer.length then s.flushLocked else s

/-- `sendToAPI` calls `SendLogs` with what the batch's slice holds. -/
def call (s : State) (i : Nat) (batch : Batch) : State :=
  { s with
    batches := s.batches.set i { batch with phase := .sending s.now }
    calls := s.calls ++
      [{ batch := i, source := batch.source.getD s.source, messages := s.heap.read batch.logs }] }

/-- The body of `LogWithSource` up to its call of `SendLogs`. -/
def direct (s : State) (source : Logs.LogSource) (message : GoString) : State :=
  let s := s.flushLocked
  let batch := s.batches.length
  { s.handOff [message] (some source) (.sending s.now) with
    holder := some batch
    calls := s.calls ++ [{ batch, source, messages := [message] }]
    logged := s.logged ++ [message] }

/-- The number of messages logged before those of a batch. -/
def offset (s : State) (i : Nat) : Nat := ((s.batches.take i).flatMap (·.contents)).length

/-- The messages of a batch that `SaveLogsRaw` does not drop, with their numbers. -/
def kept (s : State) (i : Nat) (messages : List GoString) : List (GoString × Nat) :=
  (messages.zipIdx (s.offset i)).filter fun x => !Logs.isBlank (GoString.text x.1)

/-- The rows that the API stores for a call of `SendLogs`. -/
def rowsOf (s : State) (stamped : Nat) (call : SendLogs) : List Row :=
  (s.kept call.batch call.messages).mapIdx fun n x =>
    { position := x.2
      entry :=
        { id := s.rows.length + n, deploymentId := config.deploymentId, source := call.source
          timestamp := Logs.stampOf stamped, message := GoString.text x.1 } }

/-- `wg.Wait()` returns: every goroutine of `flushLocked` is done. -/
def Idle (s : State) : Prop :=
  ∀ batch ∈ s.batches, batch.source = none → batch.phase = .returned

instance (s : State) : Decidable s.Idle :=
  inferInstanceAs (Decidable (∀ batch ∈ s.batches, _ → _))

end State

/-- `Close`, one statement at a time. -/
def closeStep (s : State) : Option State :=
  match s.closing with
  | .running => some { s with closing := .cancelled }
  | .cancelled => some { s with closing := .stopped, deadline := none }
  | .stopped =>
    if s.Idle then some { s with closing := .waited, waited := s.batches.length } else none
  | .waited =>
    if s.holder = none then some { s.flushLocked with closing := .returned } else none
  | .returned => none

/-- The steps of a logger whose lock is free. -/
def lockedStep (s : State) : Event → Option State
  | .write p =>
    some ((s.addAll spare ((Scanner.acceptedLines p).map s.prefixed)).flushIfFull config)
  | .log message => some ((s.add spare (s.prefixed message)).flushIfFull config)
  | .logWithSource source message => some (s.direct source message)
  | .flush => some s.flushLocked
  | .setSource source => some { s with source }
  | .setPrefix linePrefix => some { s with linePrefix }
  | .autoFlush =>
    if s.autoFlush = .fired then
      some { (if config.flushInterval ≤ s.now - s.lastFlush then s.flushLocked else s) with
        autoFlush := .waiting
        deadline := some (s.now + config.flushInterval) }
    else none
  | _ => none

def step (s : State) : Event → Option State
  | .tick milliseconds => some { s with now := s.now + milliseconds }
  | .send i =>
    match s.batches[i]? with
    | some batch => if batch.phase = .ready then some (s.call i batch) else none
    | none => none
  | .save i =>
    match s.batches[i]?, s.calls.find? (fun call => call.batch = i) with
    | some batch, some call =>
      match batch.phase with
      | .sending stamped =>
        some { s with
          batches := s.batches.set i { batch with phase := .saved }
          rows := s.rows ++ s.rowsOf config stamped call }
      | _ => none
    | _, _ => none
  | .ret i =>
    match s.batches[i]? with
    | some batch =>
      if batch.phase = .ready ∨ batch.phase = .returned then none
      else
        some { s with
          batches := s.batches.set i { batch with phase := .returned }
          holder := if s.holder = some i then none else s.holder }
    | none => none
  | .fire =>
    if s.autoFlush = .waiting ∧ s.deadline.any (· ≤ s.now) then
      some { s with autoFlush := .fired, deadline := none }
    else none
  | .exit =>
    if s.autoFlush = .waiting ∧ s.closing ≠ .running then some { s with autoFlush := .exited }
    else none
  | .close => closeStep s
  | e => if s.holder = none then lockedStep config spare s e else none

/-! ## What each operation does -/

def State.handedOff (s : State) : List (List GoString) :=
  s.batches.map fun batch => s.heap.read batch.logs

def State.callsOf (s : State) (i : Nat) : List SendLogs :=
  s.calls.filter fun call => call.batch = i

/-- The batches are in arrays of their own, and each was sent if its goroutine has run. -/
structure Inv (s : State) : Prop where
  buffer : s.heap.Valid s.buffer
  batches : ∀ batch ∈ s.batches, s.heap.Valid batch.logs ∧
    batch.logs.array ≠ s.buffer.array ∧ s.heap.read batch.logs = batch.contents
  logged : s.logged = s.batches.flatMap (·.contents) ++ s.heap.read s.buffer
  nonempty : ∀ batch ∈ s.batches, batch.contents ≠ []
  callsOf : ∀ i batch, s.batches[i]? = some batch →
    (batch.phase = .ready ∧ s.callsOf i = []) ∨
      (batch.phase ≠ .ready ∧ ∃ call, s.callsOf i = [call] ∧ call.messages = batch.contents)
  calls_lt : ∀ call ∈ s.calls, call.batch < s.batches.length
  holder : ∀ i batch, s.batches[i]? = some batch → batch.source ≠ none →
    batch.phase = .returned ∨ s.holder = some i

/-- The buffer has room for a message. -/
def Room (s : State) : Prop := 1 ≤ config.batchSize → s.buffer.length < config.batchSize

variable {config} {spare} {s s' : State}

theorem inv_initial (now : Nat) : Inv (State.initial config now) where
  buffer := ⟨Nat.zero_lt_one, Nat.zero_le _⟩
  batches := by simp [State.initial]
  logged := by simp [State.initial, Heap.read]
  nonempty := by simp [State.initial]
  callsOf := by simp [State.initial]
  calls_lt := by simp [State.initial]
  holder := by simp [State.initial]

theorem inv_add (hs : Inv s) (line : GoString) : Inv (s.add spare line) := by
  obtain ⟨hvalid, hread, hkeeps, harray⟩ :=
    Heap.append_spec spare line hs.buffer
  refine ⟨hvalid, fun batch hbatch => ?_, ?_, hs.nonempty, hs.callsOf, hs.calls_lt, hs.holder⟩
  · obtain ⟨hb, hne, hcontents⟩ := hs.batches batch hbatch
    refine ⟨hkeeps.valid hb hne, ?_, (hkeeps.read_eq hb.allocated hne).trans hcontents⟩
    rcases harray with hsame | hnew
    · exact fun h => hne (h.trans hsame)
    · exact fun h => Nat.ne_of_lt hb.allocated (h.trans hnew)
  · change s.logged ++ [line] = s.batches.flatMap (·.contents) ++ _
    rw [hs.logged, List.append_assoc]
    exact congrArg _ hread.symm

theorem inv_addAll (hs : Inv s) (lines : List GoString) : Inv (s.addAll spare lines) := by
  induction lines generalizing s with
  | nil => exact hs
  | cons line lines ih => exact ih (inv_add hs line)

theorem inv_handOff (contents : List GoString) (source : Option Logs.LogSource) (phase : Phase)
    (calls : List SendLogs) {t : State} (hs : Inv s)
    (hbuffer : t.buffer.array = s.buffer.array) (hvalid : s.heap.Valid t.buffer)
    (hcontents : contents ≠ [])
    (hheap : t.heap = s.heap.alloc contents)
    (hbatches : t.batches = s.batches ++
      [{ logs := s.heap.fresh contents.length, contents, source, phase }])
    (hlogged : t.logged = s.batches.flatMap (·.contents) ++ contents ++ s.heap.read t.buffer)
    (hcalls : t.calls = s.calls ++ calls)
    (hphase : (phase = .ready ∧ calls = []) ∨ (phase ≠ .ready ∧ ∃ call, calls = [call] ∧
      call.batch = s.batches.length ∧ call.messages = contents))
    (hholder : t.holder = if source = none then s.holder else some s.batches.length)
    (hfree : source ≠ none → s.holder = none) : Inv t := by
  have hin : ∀ batch ∈ t.batches, batch ∈ s.batches ∨
      batch = { logs := s.heap.fresh contents.length, contents, source, phase } := by
    intro batch hbatch
    rw [hbatches, List.mem_append, List.mem_singleton] at hbatch
    exact hbatch
  have hindex : ∀ i batch, t.batches[i]? = some batch → s.batches[i]? = some batch ∨
      (i = s.batches.length ∧
        batch = { logs := s.heap.fresh contents.length, contents, source, phase }) := by
    intro i batch hi
    rw [hbatches, List.getElem?_append] at hi
    split at hi
    · exact Or.inl hi
    · rename_i hge
      rw [List.getElem?_singleton] at hi
      split at hi
      · exact Or.inr ⟨by omega, (Option.some.inj hi).symm⟩
      · cases hi
  have hold : ∀ i, i < s.batches.length → t.callsOf i = s.callsOf i := by
    intro i hi
    rw [State.callsOf, hcalls, List.filter_append, State.callsOf]
    rcases hphase with ⟨_, hnil⟩ | ⟨_, call, hcall, hbatch, _⟩
    · rw [hnil, List.filter_nil, List.append_nil]
    · rw [hcall, List.filter_cons_of_neg (by rw [decide_eq_true_eq]; omega), List.filter_nil,
        List.append_nil]
  have hnew : t.callsOf s.batches.length = calls := by
    have hnone : s.callsOf s.batches.length = [] := by
      refine List.filter_eq_nil_iff.mpr fun call hcall => ?_
      have hlt := hs.calls_lt call hcall
      rw [decide_eq_true_eq]
      omega
    rw [State.callsOf, hcalls, List.filter_append]
    rw [State.callsOf] at hnone
    rw [hnone, List.nil_append]
    rcases hphase with ⟨_, hnil⟩ | ⟨_, call, hcall, hbatch, _⟩
    · rw [hnil, List.filter_nil]
    · rw [hcall, List.filter_cons_of_pos (by rw [hbatch]; exact decide_eq_true rfl),
        List.filter_nil]
  constructor
  · rw [hheap]
    exact Heap.valid_alloc hvalid
  · intro batch hbatch
    rw [hheap, hbuffer]
    rcases hin batch hbatch with hb | rfl
    · obtain ⟨hb, hne, hread⟩ := hs.batches batch hb
      exact ⟨Heap.valid_alloc hb, hne, (Heap.read_alloc_of_lt hb.allocated).trans hread⟩
    · exact ⟨Heap.valid_fresh (Nat.le_refl _), (Nat.ne_of_lt hs.buffer.allocated).symm,
        Heap.read_fresh⟩
  · rw [hheap, hbatches, hlogged, Heap.read_alloc_of_lt hvalid.allocated,
      List.flatMap_append, List.flatMap_singleton]
  · intro batch hbatch
    rcases hin batch hbatch with hb | rfl
    · exact hs.nonempty batch hb
    · exact hcontents
  · intro i batch hi
    rcases hindex i batch hi with hb | ⟨rfl, rfl⟩
    · rw [hold i (List.getElem?_eq_some_iff.mp hb).1]
      exact hs.callsOf i batch hb
    · rw [hnew]
      rcases hphase with hready | ⟨hphase, call, hcall, _, hmessages⟩
      · exact Or.inl hready
      · exact Or.inr ⟨hphase, call, hcall, hmessages⟩
  · intro call hcall
    rw [hcalls, List.mem_append] at hcall
    rw [hbatches, List.length_append, List.length_singleton]
    rcases hcall with hcall | hcall
    · exact Nat.lt_succ_of_lt (hs.calls_lt call hcall)
    · rcases hphase with ⟨_, hnil⟩ | ⟨_, call', hcall', hbatch, _⟩
      · rw [hnil] at hcall
        cases hcall
      · rw [hcall', List.mem_singleton] at hcall
        rw [hcall, hbatch]
        exact Nat.lt_succ_self _
  · intro i batch hi hsource
    rw [hholder]
    rcases hindex i batch hi with hb | ⟨rfl, rfl⟩
    · rcases hs.holder i batch hb hsource with hreturned | hheld
      · exact Or.inl hreturned
      · by_cases hnone : source = none
        · exact Or.inr (by rw [if_pos hnone, hheld])
        · rw [hfree hnone] at hheld
          cases hheld
    · exact Or.inr (if_neg hsource)

theorem inv_flushLocked (hs : Inv s) : Inv s.flushLocked := by
  rw [State.flushLocked]
  split
  · exact hs
  · rename_i hne
    have hread : s.heap.read s.buffer ≠ [] := fun h => hne ((Heap.read_eq_nil_iff hs.buffer).mp h)
    refine inv_handOff (s.heap.read s.buffer) none .ready [] hs rfl hs.buffer.clear hread rfl rfl ?_
      (List.append_nil _).symm (Or.inl ⟨rfl, rfl⟩) rfl (absurd rfl)
    change s.logged = _ ++ s.heap.read s.buffer.clear
    rw [Heap.read_clear, List.append_nil]
    exact hs.logged

theorem holder_flushLocked : s.flushLocked.holder = s.holder := by
  rw [State.flushLocked]
  split <;> rfl

theorem logged_flushLocked : s.flushLocked.logged = s.logged := by
  rw [State.flushLocked]
  split <;> rfl

theorem length_flushLocked : s.flushLocked.buffer.length = 0 := by
  rw [State.flushLocked]
  split
  · assumption
  · rfl

theorem inv_direct {source : Logs.LogSource} {message : GoString} (hs : Inv s)
    (hfree : s.holder = none) : Inv (s.direct source message) := by
  have hflushed := inv_flushLocked hs
  have hempty : s.flushLocked.heap.read s.flushLocked.buffer = [] :=
    (Heap.read_eq_nil_iff hflushed.buffer).mpr length_flushLocked
  refine inv_handOff [message] (some source) (.sending s.flushLocked.now)
    [{ batch := s.flushLocked.batches.length, source, messages := [message] }]
    hflushed rfl hflushed.buffer (List.cons_ne_nil _ _) rfl rfl ?_ rfl
    (Or.inr ⟨Phase.noConfusion, _, rfl, rfl, rfl⟩) rfl
    (fun _ => holder_flushLocked.trans hfree)
  change s.flushLocked.logged ++ [message] = _ ++ s.flushLocked.heap.read s.flushLocked.buffer
  rw [hflushed.logged, hempty, List.append_nil, List.append_nil]

theorem inv_set {i : Nat} {batch : Batch} {t : State} (phase : Phase) (calls : List SendLogs)
    (hs : Inv s) (hi : s.batches[i]? = some batch) (hheap : t.heap = s.heap)
    (hbuffer : t.buffer = s.buffer) (hlogged : t.logged = s.logged)
    (hbatches : t.batches = s.batches.set i { batch with phase })
    (hcalls : t.calls = s.calls ++ calls)
    (hphase : (batch.phase ≠ .ready ∧ phase ≠ .ready ∧ calls = []) ∨
      (batch.phase = .ready ∧ phase ≠ .ready ∧ ∃ call, calls = [call] ∧ call.batch = i ∧
        call.messages = batch.contents))
    (hholder : ∀ j, s.holder = some j → t.holder = some j ∨ (j = i ∧ phase = .returned))
    (hsource : batch.source ≠ none → batch.phase = .returned → phase = .returned) : Inv t := by
  have hlt := (List.getElem?_eq_some_iff.mp hi).1
  have hmap : ∀ (β : Type) (f : Batch → β), (∀ b p, f { b with phase := p } = f b) →
      t.batches.map f = s.batches.map f := by
    intro β f hf
    rw [hbatches, List.map_set, hf]
    have hf' : (s.batches.map f)[i]? = some (f batch) := by
      rw [List.getElem?_map, hi]
      rfl
    obtain ⟨hlt', hget⟩ := List.getElem?_eq_some_iff.mp hf'
    rw [← hget, List.set_getElem_self]
  have hindex : ∀ j b, t.batches[j]? = some b → (j = i ∧ b = { batch with phase }) ∨
      (j ≠ i ∧ s.batches[j]? = some b) := by
    intro j b hj
    rw [hbatches] at hj
    by_cases hji : j = i
    · subst hji
      rw [List.getElem?_set_self hlt, Option.some.injEq] at hj
      exact Or.inl ⟨rfl, hj.symm⟩
    · rw [List.getElem?_set_ne (Ne.symm hji)] at hj
      exact Or.inr ⟨hji, hj⟩
  have hin : ∀ b ∈ t.batches, ∃ b' ∈ s.batches, b.logs = b'.logs ∧ b.contents = b'.contents := by
    intro b hb
    obtain ⟨j, hj⟩ := List.mem_iff_getElem?.mp hb
    rcases hindex j b hj with ⟨_, rfl⟩ | ⟨_, hj⟩
    · exact ⟨batch, List.mem_of_getElem? hi, rfl, rfl⟩
    · exact ⟨b, List.mem_of_getElem? hj, rfl, rfl⟩
  have hother : ∀ j, j ≠ i → t.callsOf j = s.callsOf j := by
    intro j hj
    rw [State.callsOf, hcalls, List.filter_append, State.callsOf]
    rcases hphase with ⟨_, _, hnil⟩ | ⟨_, _, call, hcall, hbatch, _⟩
    · rw [hnil, List.filter_nil, List.append_nil]
    · rw [hcall, List.filter_cons_of_neg (by rw [decide_eq_true_eq]; omega), List.filter_nil,
        List.append_nil]
  constructor
  · rw [hheap, hbuffer]
    exact hs.buffer
  · intro b hb
    obtain ⟨b', hb', hlogs, hcontents⟩ := hin b hb
    rw [hheap, hbuffer, hlogs, hcontents]
    exact hs.batches b' hb'
  · rw [hheap, hbuffer, hlogged, hs.logged, List.flatMap_def, List.flatMap_def,
      hmap _ Batch.contents fun _ _ => rfl]
  · intro b hb
    obtain ⟨b', hb', _, hcontents⟩ := hin b hb
    rw [hcontents]
    exact hs.nonempty b' hb'
  · intro j b hj
    rcases hindex j b hj with ⟨rfl, rfl⟩ | ⟨hne, hj⟩
    · refine Or.inr ?_
      rw [State.callsOf, hcalls, List.filter_append]
      rcases hphase with ⟨hrun, hphase, hnil⟩ | ⟨hready, hphase, call, hcall, hbatch, hmessages⟩
      · rcases hs.callsOf j batch hi with ⟨hready, _⟩ | ⟨_, call, hcall, hmessages⟩
        · exact absurd hready hrun
        · rw [hnil, List.filter_nil, List.append_nil]
          exact ⟨hphase, call, hcall, hmessages⟩
      · rcases hs.callsOf j batch hi with ⟨_, hnone⟩ | ⟨hrun, _⟩
        · rw [State.callsOf] at hnone
          rw [hnone, hcall, List.nil_append,
            List.filter_cons_of_pos (by rw [hbatch]; exact decide_eq_true rfl), List.filter_nil]
          exact ⟨hphase, call, rfl, hmessages⟩
        · exact absurd hready hrun
    · rw [hother j hne]
      exact hs.callsOf j b hj
  · intro call hcall
    rw [hbatches, List.length_set]
    rw [hcalls, List.mem_append] at hcall
    rcases hcall with hcall | hcall
    · exact hs.calls_lt call hcall
    · rcases hphase with ⟨_, _, hnil⟩ | ⟨_, _, call', hcall', hbatch, _⟩
      · rw [hnil] at hcall
        cases hcall
      · rw [hcall', List.mem_singleton] at hcall
        rwa [hcall, hbatch]
  · intro j b hj hdirect
    rcases hindex j b hj with ⟨rfl, rfl⟩ | ⟨hne, hj⟩
    · rcases hs.holder j batch hi hdirect with hreturned | hheld
      · exact Or.inl (hsource hdirect hreturned)
      · rcases hholder j hheld with hheld | ⟨_, hreturned⟩
        · exact Or.inr hheld
        · exact Or.inl hreturned
    · rcases hs.holder j b hj hdirect with hreturned | hheld
      · exact Or.inl hreturned
      · rcases hholder j hheld with hheld | ⟨heq, _⟩
        · exact Or.inr hheld
        · exact absurd heq hne

/-! ## Every step -/

def State.contents (s : State) : List (List GoString) := s.batches.map (·.contents)

/-- The batches stay, in their order; a call of `SendLogs` that has returned has returned. -/
def GoesOn (s s' : State) : Prop :=
  ∀ (i : Nat) (batch : Batch), s.batches[i]? = some batch →
    ∃ phase, s'.batches[i]? = some { batch with phase } ∧
      (batch.phase = .returned → phase = .returned)

theorem GoesOn.trans {t : State} (h : GoesOn s s') (h' : GoesOn s' t) : GoesOn s t := by
  intro i batch hi
  obtain ⟨phase, hi', hphase⟩ := h i batch hi
  obtain ⟨phase', hi'', hphase'⟩ := h' i _ hi'
  exact ⟨phase', hi'', fun hreturned => hphase' (hphase hreturned)⟩

theorem goesOn_of_append {new : List Batch} (h : s'.batches = s.batches ++ new) : GoesOn s s' := by
  intro i batch hi
  refine ⟨batch.phase, ?_, fun hreturned => hreturned⟩
  rw [h, List.getElem?_append_left (List.getElem?_eq_some_iff.mp hi).1, hi]

theorem goesOn_of_eq (h : s'.batches = s.batches) : GoesOn s s' :=
  goesOn_of_append (h.trans (List.append_nil _).symm)

theorem goesOn_set {i : Nat} {batch : Batch} {phase : Phase} (hi : s.batches[i]? = some batch)
    (hphase : batch.phase ≠ .returned ∨ phase = .returned)
    (h : s'.batches = s.batches.set i { batch with phase }) : GoesOn s s' := by
  intro j b hj
  by_cases hji : j = i
  · subst hji
    rw [hi, Option.some.injEq] at hj
    subst hj
    refine ⟨phase, ?_, fun hreturned => hphase.resolve_left (absurd hreturned)⟩
    rw [h, List.getElem?_set_self (List.getElem?_eq_some_iff.mp hi).1]
  · refine ⟨b.phase, ?_, fun hreturned => hreturned⟩
    rw [h, List.getElem?_set_ne (Ne.symm hji), hj]

theorem GoesOn.contents (h : GoesOn s s') : s.contents <+: s'.contents := by
  refine List.prefix_iff_getElem?.mpr fun i hi => ?_
  obtain ⟨batch, hbatch, hcontents⟩ : ∃ batch, s.batches[i]? = some batch ∧
      batch.contents = s.contents[i] := by
    have hlt : i < s.batches.length := by simpa [State.contents] using hi
    exact ⟨s.batches[i], List.getElem?_eq_getElem hlt, by simp [State.contents]⟩
  obtain ⟨phase, hi', _⟩ := h i batch hbatch
  rw [State.contents, List.getElem?_map, hi', ← hcontents]
  rfl

theorem goesOn_flushLocked : GoesOn s s.flushLocked := by
  rw [State.flushLocked]
  split
  · exact goesOn_of_eq rfl
  · exact goesOn_of_append rfl

theorem goesOn_direct {source : Logs.LogSource} {message : GoString} :
    GoesOn s (s.direct source message) :=
  goesOn_flushLocked.trans (goesOn_of_append rfl)

theorem batches_addAll {lines : List GoString} : (s.addAll spare lines).batches = s.batches := by
  induction lines generalizing s with
  | nil => rfl
  | cons line lines ih => exact ih

theorem inv_flushIfFull (hs : Inv s) : Inv (s.flushIfFull config) := by
  rw [State.flushIfFull]
  split
  · exact inv_flushLocked hs
  · exact hs

theorem room_flushLocked : Room config s.flushLocked := fun h => by
  rw [length_flushLocked]
  exact h

theorem room_flushIfFull : Room config (s.flushIfFull config) := by
  rw [State.flushIfFull]
  split
  · exact room_flushLocked
  · rename_i hroom
    exact fun _ => Nat.lt_of_not_le hroom

theorem logged_addAll {lines : List GoString} :
    s.logged <+: (s.addAll spare lines).logged := by
  induction lines generalizing s with
  | nil => exact List.prefix_rfl
  | cons line lines ih =>
    have hadd : s.logged <+: (s.add spare line).logged := List.prefix_append _ _
    exact hadd.trans ih

theorem logged_flushIfFull : (s.flushIfFull config).logged = s.logged := by
  rw [State.flushIfFull]
  split
  · exact logged_flushLocked
  · rfl

theorem goesOn_flushIfFull : GoesOn s (s.flushIfFull config) := by
  rw [State.flushIfFull]
  split
  · exact goesOn_flushLocked
  · exact goesOn_of_eq rfl

/-- What every step preserves. -/
structure Kept (config : Config) (s s' : State) : Prop where
  inv : Inv s'
  room : Room config s'
  goesOn : GoesOn s s'
  logged : s.logged <+: s'.logged

/-- A step that touches neither the buffer nor the batches. -/
theorem kept_of_eq (hs : Inv s) (hroom : Room config s) (hheap : s'.heap = s.heap)
    (hbuffer : s'.buffer = s.buffer) (hbatches : s'.batches = s.batches)
    (hcalls : s'.calls = s.calls) (hlogged : s'.logged = s.logged)
    (hholder : s'.holder = s.holder) : Kept config s s' := by
  refine ⟨⟨?_, ?_, ?_, ?_, ?_, ?_, ?_⟩, ?_, ?_, ?_⟩
  · rw [hheap, hbuffer]
    exact hs.buffer
  · rw [hheap, hbuffer, hbatches]
    exact hs.batches
  · rw [hheap, hbuffer, hbatches, hlogged]
    exact hs.logged
  · rw [hbatches]
    exact hs.nonempty
  · rw [hbatches]
    simp only [State.callsOf, hcalls]
    exact hs.callsOf
  · rw [hbatches, hcalls]
    exact hs.calls_lt
  · rw [hbatches, hholder]
    exact hs.holder
  · rw [Room, hbuffer]
    exact hroom
  · exact goesOn_of_eq hbatches
  · exact hlogged.symm ▸ List.prefix_rfl

theorem Kept.trans_eq {t : State} (hk : Kept config s s') (hheap : t.heap = s'.heap)
    (hbuffer : t.buffer = s'.buffer) (hbatches : t.batches = s'.batches)
    (hcalls : t.calls = s'.calls) (hlogged : t.logged = s'.logged)
    (hholder : t.holder = s'.holder) : Kept config s t := by
  obtain ⟨hinv, hroom, hgoesOn, hkept⟩ :=
    kept_of_eq hk.inv hk.room hheap hbuffer hbatches hcalls hlogged hholder
  exact ⟨hinv, hroom, hk.goesOn.trans hgoesOn, hk.logged.trans hkept⟩

theorem kept_flushLocked (hs : Inv s) : Kept config s s.flushLocked :=
  ⟨inv_flushLocked hs, room_flushLocked, goesOn_flushLocked, logged_flushLocked ▸ List.prefix_rfl⟩

theorem kept_closeStep (hs : Inv s) (hroom : Room config s) (h : closeStep s = some s') :
    Kept config s s' := by
  rw [closeStep] at h
  split at h
  · cases h
    exact kept_of_eq hs hroom rfl rfl rfl rfl rfl rfl
  · cases h
    exact kept_of_eq hs hroom rfl rfl rfl rfl rfl rfl
  · split at h
    · cases h
      exact kept_of_eq hs hroom rfl rfl rfl rfl rfl rfl
    · cases h
  · split at h
    · cases h
      exact (kept_flushLocked hs).trans_eq rfl rfl rfl rfl rfl rfl
    · cases h
  · cases h

theorem kept_lockedStep {e : Event} (hs : Inv s) (hroom : Room config s)
    (hfree : s.holder = none) (h : lockedStep config spare s e = some s') : Kept config s s' := by
  cases e with
  | write p =>
    cases h
    refine ⟨inv_flushIfFull (inv_addAll hs _), room_flushIfFull,
      (goesOn_of_eq batches_addAll).trans goesOn_flushIfFull, ?_⟩
    rw [logged_flushIfFull]
    exact logged_addAll
  | log message =>
    cases h
    have hsame : GoesOn s (s.add spare (s.prefixed message)) := goesOn_of_eq rfl
    refine ⟨inv_flushIfFull (inv_add hs _), room_flushIfFull, hsame.trans goesOn_flushIfFull, ?_⟩
    rw [logged_flushIfFull]
    exact List.prefix_append _ _
  | logWithSource source message =>
    cases h
    refine ⟨inv_direct hs hfree, room_flushLocked, goesOn_direct, ?_⟩
    rw [State.direct, ← logged_flushLocked]
    exact List.prefix_append _ _
  | flush =>
    cases h
    exact kept_flushLocked hs
  | setSource source =>
    cases h
    exact kept_of_eq hs hroom rfl rfl rfl rfl rfl rfl
  | setPrefix linePrefix =>
    cases h
    exact kept_of_eq hs hroom rfl rfl rfl rfl rfl rfl
  | autoFlush =>
    rw [lockedStep] at h
    split at h
    · cases h
      split
      · exact (kept_flushLocked hs).trans_eq rfl rfl rfl rfl rfl rfl
      · exact kept_of_eq hs hroom rfl rfl rfl rfl rfl rfl
    · cases h
  | tick _ | send _ | save _ | ret _ | fire | exit | close => cases h

theorem kept_send {i : Nat} (hs : Inv s) (hroom : Room config s)
    (h : step config spare s (.send i) = some s') : Kept config s s' := by
  rw [step] at h
  split at h
  · rename_i batch hi
    split at h
    · rename_i hready
      cases h
      refine ⟨inv_set (.sending s.now) [_] hs hi rfl rfl rfl rfl rfl
        (Or.inr ⟨hready, Phase.noConfusion, _, rfl, rfl, ?_⟩) (fun j hj => Or.inl hj)
        (fun _ hreturned => ?_), hroom, ?_, ?_⟩
      · exact (hs.batches batch (List.mem_of_getElem? hi)).2.2
      · rw [hready] at hreturned
        cases hreturned
      · refine goesOn_set hi (Or.inl ?_) rfl
        rw [hready]
        exact Phase.noConfusion
      · exact List.prefix_rfl
    · cases h
  · cases h

theorem kept_save {i : Nat} (hs : Inv s) (hroom : Room config s)
    (h : step config spare s (.save i) = some s') : Kept config s s' := by
  rw [step] at h
  split at h
  · rename_i batch call hi _
    split at h
    · rename_i stamped hphase
      cases h
      refine ⟨inv_set .saved [] hs hi rfl rfl rfl rfl (List.append_nil _).symm
        (Or.inl ⟨?_, Phase.noConfusion, rfl⟩) (fun j hj => Or.inl hj)
        (fun _ hreturned => ?_), hroom, ?_, ?_⟩
      · rw [hphase]
        exact Phase.noConfusion
      · rw [hphase] at hreturned
        cases hreturned
      · refine goesOn_set hi (Or.inl ?_) rfl
        rw [hphase]
        exact Phase.noConfusion
      · exact List.prefix_rfl
    · cases h
  · cases h

theorem kept_ret {i : Nat} (hs : Inv s) (hroom : Room config s)
    (h : step config spare s (.ret i) = some s') : Kept config s s' := by
  rw [step] at h
  split at h
  · rename_i batch hi
    split at h
    · cases h
    · rename_i hphase
      cases h
      rw [not_or] at hphase
      refine ⟨inv_set .returned [] hs hi rfl rfl rfl rfl (List.append_nil _).symm
        (Or.inl ⟨hphase.1, Phase.noConfusion, rfl⟩) (fun j hj => ?_)
        (fun _ _ => rfl), hroom, ?_, ?_⟩
      · by_cases hji : j = i
        · exact Or.inr ⟨hji, rfl⟩
        · refine Or.inl ?_
          rw [hj, if_neg (by rw [Option.some.injEq]; exact hji)]
      · exact goesOn_set hi (Or.inr rfl) rfl
      · exact List.prefix_rfl
  · cases h

theorem kept_step {e : Event} (hs : Inv s) (hroom : Room config s)
    (h : step config spare s e = some s') : Kept config s s' := by
  have hlocked : ∀ e, (if s.holder = none then lockedStep config spare s e else none) = some s' →
      Kept config s s' := by
    intro e h
    split at h
    · rename_i hfree
      exact kept_lockedStep hs hroom hfree h
    · cases h
  cases e with
  | tick milliseconds =>
    cases h
    exact kept_of_eq hs hroom rfl rfl rfl rfl rfl rfl
  | send i => exact kept_send hs hroom h
  | save i => exact kept_save hs hroom h
  | ret i => exact kept_ret hs hroom h
  | fire =>
    rw [step] at h
    split at h
    · cases h
      exact kept_of_eq hs hroom rfl rfl rfl rfl rfl rfl
    · cases h
  | exit =>
    rw [step] at h
    split at h
    · cases h
      exact kept_of_eq hs hroom rfl rfl rfl rfl rfl rfl
    · cases h
  | close => exact kept_closeStep hs hroom h
  | write p => exact hlocked _ h
  | log message => exact hlocked _ h
  | logWithSource source message => exact hlocked _ h
  | flush => exact hlocked _ h
  | setSource source => exact hlocked _ h
  | setPrefix linePrefix => exact hlocked _ h
  | autoFlush => exact hlocked _ h

def Reachable (config : Config) (spare : List GoString → List GoString) (s : State) : Prop :=
  ∃ now, Reaches (step config spare) (fun _ _ => True) (State.initial config now) s

theorem room_initial (now : Nat) : Room config (State.initial config now) := fun h => h

theorem reaches_kept {ok : State → Event → Prop} (h : Reaches (step config spare) ok s s')
    (hs : Inv s) (hroom : Room config s) : Kept config s s' :=
  h.invariant (Kept config s) ⟨hs, hroom, goesOn_of_eq rfl, List.prefix_rfl⟩ fun _ _ _ hk _ hstep =>
    let next := kept_step hk.inv hk.room hstep
    ⟨next.inv, next.room, hk.goesOn.trans next.goesOn, hk.logged.trans next.logged⟩

theorem kept_of_reachable (h : Reachable config spare s) : Inv s ∧ Room config s := by
  obtain ⟨now, h⟩ := h
  have hk := reaches_kept h (inv_initial now) (room_initial now)
  exact ⟨hk.inv, hk.room⟩

/-! ## No message is lost, doubled or changed -/

theorem handedOff_eq (hs : Inv s) : s.handedOff = s.contents :=
  List.map_congr_left fun batch hbatch => (hs.batches batch hbatch).2.2

/-- The messages are in the batches and the buffer, and each batch is sent at most once. -/
structure Conserves (config : Config) (s : State) : Prop where
  logged : s.logged = s.handedOff.flatten ++ s.heap.read s.buffer
  unaltered : s.handedOff = s.contents
  once : ∀ i batch, s.batches[i]? = some batch → (s.callsOf i).length ≤ 1 ∧
    ∀ call ∈ s.callsOf i, call.messages = batch.contents
  finished : ∀ i batch, s.batches[i]? = some batch → batch.phase = .returned →
    (s.callsOf i).length = 1
  room : 1 ≤ config.batchSize → (s.heap.read s.buffer).length < config.batchSize

/-- At every moment the logged messages are those of the batches in hand-off order and then those
of the buffer, whatever the order of steps, and no later step changes what was handed off. -/
theorem conserves_of_reachable (config : Config) (spare : List GoString → List GoString)
    (s : State) (h : Reachable config spare s) :
    Conserves config s ∧ ∀ later, Reaches (step config spare) (fun _ _ => True) s later →
      s.handedOff <+: later.handedOff := by
  obtain ⟨hs, hroom⟩ := kept_of_reachable h
  refine ⟨⟨?_, handedOff_eq hs, fun i batch hi => ?_, fun i batch hi hreturned => ?_,
    fun hsize => ?_⟩, fun later hlater => ?_⟩
  · rw [handedOff_eq hs, hs.logged, State.contents, List.flatMap_def]
  · rcases hs.callsOf i batch hi with ⟨_, hnil⟩ | ⟨_, call, hcall, hmessages⟩
    · rw [hnil]
      exact ⟨Nat.zero_le _, fun call hcall => absurd hcall List.not_mem_nil⟩
    · rw [hcall]
      refine ⟨Nat.le_refl _, fun call' hcall' => ?_⟩
      rw [List.mem_singleton.mp hcall', hmessages]
  · rcases hs.callsOf i batch hi with ⟨hready, _⟩ | ⟨_, call, hcall, _⟩
    · rw [hready] at hreturned
      cases hreturned
    · rw [hcall, List.length_singleton]
  · rw [Heap.length_read hs.buffer]
    exact hroom hsize
  · have hk := reaches_kept hlater hs hroom
    rw [handedOff_eq hs, handedOff_eq hk.inv]
    exact hk.goesOn.contents

/-! ## What only some steps change -/

theorem frame_flushLocked : s.flushLocked.closing = s.closing ∧
    s.flushLocked.waited = s.waited ∧ s.flushLocked.rows = s.rows := by
  rw [State.flushLocked]
  split <;> exact ⟨rfl, rfl, rfl⟩

theorem frame_addAll {lines : List GoString} : (s.addAll spare lines).closing = s.closing ∧
    (s.addAll spare lines).waited = s.waited ∧ (s.addAll spare lines).rows = s.rows := by
  induction lines generalizing s with
  | nil => exact ⟨rfl, rfl, rfl⟩
  | cons line lines ih => exact ih

/-- Flushing a state that differs from another in the buffer and the heap only. -/
theorem frame_flushIfFull {t : State}
    (h : t.closing = s.closing ∧ t.waited = s.waited ∧ t.rows = s.rows) :
    (t.flushIfFull config).closing = s.closing ∧
      (t.flushIfFull config).waited = s.waited ∧ (t.flushIfFull config).rows = s.rows := by
  rw [State.flushIfFull]
  split
  · exact ⟨frame_flushLocked.1.trans h.1, frame_flushLocked.2.1.trans h.2.1,
      frame_flushLocked.2.2.trans h.2.2⟩
  · exact h

theorem frame_lockedStep {e : Event} (h : lockedStep config spare s e = some s') :
    s'.closing = s.closing ∧ s'.waited = s.waited ∧ s'.rows = s.rows := by
  cases e with
  | write p =>
    cases h
    exact frame_flushIfFull frame_addAll
  | log message =>
    cases h
    exact frame_flushIfFull ⟨rfl, rfl, rfl⟩
  | logWithSource source message =>
    cases h
    exact frame_flushLocked
  | flush =>
    cases h
    exact frame_flushLocked
  | setSource source =>
    cases h
    exact ⟨rfl, rfl, rfl⟩
  | setPrefix linePrefix =>
    cases h
    exact ⟨rfl, rfl, rfl⟩
  | autoFlush =>
    rw [lockedStep] at h
    split at h
    · cases h
      split
      · exact frame_flushLocked
      · exact ⟨rfl, rfl, rfl⟩
    · cases h
  | tick _ | send _ | save _ | ret _ | fire | exit | close => cases h

/-- Only `Close` itself goes on with `Close`, and rows are stored by the API only. -/
theorem frame_step {e : Event} (h : step config spare s e = some s') :
    (e ≠ .close → s'.closing = s.closing ∧ s'.waited = s.waited) ∧
      ((∀ i, e ≠ .save i) → s'.rows = s.rows) := by
  have hlocked : ∀ e, (if s.holder = none then lockedStep config spare s e else none) = some s' →
      s'.closing = s.closing ∧ s'.waited = s.waited ∧ s'.rows = s.rows := by
    intro e h
    split at h
    · exact frame_lockedStep h
    · cases h
  have hall : s'.closing = s.closing ∧ s'.waited = s.waited ∧ s'.rows = s.rows →
      (e ≠ .close → s'.closing = s.closing ∧ s'.waited = s.waited) ∧
        ((∀ i, e ≠ .save i) → s'.rows = s.rows) :=
    fun ⟨hclosing, hwaited, hrows⟩ => ⟨fun _ => ⟨hclosing, hwaited⟩, fun _ => hrows⟩
  cases e with
  | tick milliseconds =>
    cases h
    exact hall ⟨rfl, rfl, rfl⟩
  | send i =>
    rw [step] at h
    split at h
    · split at h
      · cases h
        exact hall ⟨rfl, rfl, rfl⟩
      · cases h
    · cases h
  | save i =>
    refine ⟨fun _ => ?_, fun hsave => absurd rfl (hsave i)⟩
    rw [step] at h
    split at h
    · split at h
      · cases h
        exact ⟨rfl, rfl⟩
      · cases h
    · cases h
  | ret i =>
    rw [step] at h
    split at h
    · split at h
      · cases h
      · cases h
        exact hall ⟨rfl, rfl, rfl⟩
    · cases h
  | fire =>
    rw [step] at h
    split at h
    · cases h
      exact hall ⟨rfl, rfl, rfl⟩
    · cases h
  | exit =>
    rw [step] at h
    split at h
    · cases h
      exact hall ⟨rfl, rfl, rfl⟩
    · cases h
  | close =>
    refine ⟨absurd rfl, fun _ => ?_⟩
    have hclose : closeStep s = some s' := h
    rw [closeStep] at hclose
    split at hclose
    · cases hclose
      rfl
    · cases hclose
      rfl
    · split at hclose
      · cases hclose
        rfl
      · cases hclose
    · split at hclose
      · cases hclose
        exact frame_flushLocked.2.2
      · cases hclose
    · cases hclose
  | write p => exact hall (hlocked _ h)
  | log message => exact hall (hlocked _ h)
  | logWithSource source message => exact hall (hlocked _ h)
  | flush => exact hall (hlocked _ h)
  | setSource source => exact hall (hlocked _ h)
  | setPrefix linePrefix => exact hall (hlocked _ h)
  | autoFlush => exact hall (hlocked _ h)

/-! ## A logger for two lines -/

def shopConfig : Config where
  deploymentId := 2
  batchSize := 2
  flushInterval := 1000
  source := .build
  linePrefix := []

def shopEvents : List Event :=
  [.log (utf8 "one"), .log (utf8 "two"), .send 0, .log (utf8 "three"), .logWithSource .system
    (utf8 "four"), .save 0, .ret 0]

theorem conserves_of_reachable_shop :
    ∃ s, Reachable shopConfig (fun _ => []) s ∧ s.batches.length = 3 ∧ Conserves shopConfig s := by
  obtain ⟨s, hreaches, hs⟩ := Reaches.exists_of_runEvents (step shopConfig fun _ => [])
    (fun _ _ => True) (State.initial shopConfig 0) shopEvents (fun s => s.batches.length == 3)
    (by decide) (runsUnder_true _ _ _)
  have hreachable : Reachable shopConfig (fun _ => []) s := ⟨0, hreaches⟩
  exact ⟨s, hreachable, eq_of_beq hs,
    (conserves_of_reachable shopConfig (fun _ => []) s hreachable).1⟩

end StreamLogger
end Worker
end Code2Cloud
