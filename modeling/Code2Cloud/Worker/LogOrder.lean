import Code2Cloud.Base.Sorting
import Code2Cloud.Worker.StreamLogger

/-!
# The order of a logger's lines

The API sorts the rows of a deployment by their timestamps, which are whole seconds of the
times at which the batches were sent.
-/

namespace Code2Cloud
namespace Worker
namespace StreamLogger

open Api

variable (config : Config) (spare : List GoString → List GoString)

/-- A client that follows the logger's deployment. -/
def viewer : Logs.Viewer where
  deploymentId := config.deploymentId
  source := none

/-- The rows in an order in which `getLogs` may return them. -/
def Lists (s : State) (order : List Row) : Prop :=
  order.Perm s.rows ∧
    Logs.Answers (viewer config) none (s.rows.map Row.entry) (order.map Row.entry)

instance (s : State) (order : List Row) : Decidable (Lists config s order) := instDecidableAnd

/-- Whatever order rows of one timestamp come in, the messages are listed as they were logged. -/
def InOrder (s : State) : Prop :=
  ∀ order, Lists config s order → order.Pairwise fun x y => x.position ≤ y.position

/-- Storing a batch keeps the order: at most one of its messages is not blank, its second is later
than that of every stored row of an earlier message, and earlier than that of every stored row of a
later one. -/
def Separate (s : State) : Event → Prop
  | .save i =>
    match s.batches[i]? with
    | some { contents, phase := .sending stamped, .. } =>
      (s.kept i contents).length ≤ 1 ∧ ∀ row ∈ s.rows, ∀ x ∈ s.kept i contents,
        (row.position < x.2 → row.entry.timestamp < Logs.stampOf stamped) ∧
          (x.2 < row.position → Logs.stampOf stamped < row.entry.timestamp)
    | _ => True
  | _ => True

instance (s : State) (e : Event) : Decidable (Separate s e) := by
  unfold Separate
  split
  · split
    · exact instDecidableAnd
    · exact isTrue trivial
  · exact isTrue trivial

/-- Each row holds the text of the message with its number. -/
structure RowsInv (s : State) : Prop where
  inv : Inv s
  room : Room config s
  rows : ∀ row ∈ s.rows, row.entry.deploymentId = config.deploymentId ∧
    ∃ message, s.logged[row.position]? = some message ∧
      row.entry.message = GoString.text message

variable {config} {spare} {s s' : State}

/-! ## The rows of a batch -/

/-- The message of a batch stands behind those of the earlier batches. -/
theorem getElem?_logged (hs : Inv s) {i k : Nat} {batch : Batch} {message : GoString}
    (hi : s.batches[i]? = some batch) (hk : batch.contents[k]? = some message) :
    s.logged[s.offset i + k]? = some message := by
  obtain ⟨hlt, hget⟩ := List.getElem?_eq_some_iff.mp hi
  have hsplit : s.batches = s.batches.take i ++ batch :: s.batches.drop (i + 1) := by
    rw [← hget, ← List.drop_eq_getElem_cons hlt, List.take_append_drop]
  have hlogged : s.logged = (s.batches.take i).flatMap (·.contents) ++ (batch.contents ++
      ((s.batches.drop (i + 1)).flatMap (·.contents) ++ s.heap.read s.buffer)) := by
    rw [hs.logged]
    conv_lhs => rw [hsplit, List.flatMap_append, List.flatMap_cons]
    simp only [List.append_assoc]
  rw [hlogged, State.offset, List.getElem?_append_right (Nat.le_add_right _ _),
    Nat.add_sub_cancel_left, List.getElem?_append_left (List.getElem?_eq_some_iff.mp hk).1, hk]

theorem mem_kept {i : Nat} {contents : List GoString} {x : GoString × Nat}
    (hx : x ∈ s.kept i contents) : ∃ k, contents[k]? = some x.1 ∧ x.2 = s.offset i + k := by
  obtain ⟨hx, _⟩ := List.mem_filter.mp hx
  obtain ⟨hle, hget⟩ := List.mk_mem_zipIdx_iff_le_and_getElem?_sub.mp hx
  exact ⟨x.2 - s.offset i, hget, by omega⟩

theorem pairwise_kept {i : Nat} {contents : List GoString} :
    (s.kept i contents).Pairwise fun x y => x.2 < y.2 := by
  refine List.Pairwise.filter _ ?_
  have hrange : ((contents.zipIdx (s.offset i)).map Prod.snd).Pairwise (· < ·) := by
    rw [List.zipIdx_map_snd]
    exact List.pairwise_lt_range'
  exact List.pairwise_map.mp hrange

theorem rowsOf_entry {stamped : Nat} {call : SendLogs} :
    (s.rowsOf config stamped call).map Row.entry =
      Logs.createLogs s.now s.rows.length config.deploymentId
        (Logs.saveLogsRaw stamped call.source (call.messages.map GoString.text)) := by
  have hkept : (call.messages.map GoString.text).filter (fun msg => !Logs.isBlank msg) =
      (s.kept call.batch call.messages).map fun x => GoString.text x.1 := by
    have hfst : call.messages.map GoString.text =
        (call.messages.zipIdx (s.offset call.batch)).map fun x => GoString.text x.1 := by
      conv_lhs => rw [← List.zipIdx_map_fst (s.offset call.batch) call.messages, List.map_map]
      rfl
    rw [hfst, List.filter_map, State.kept]
    rfl
  rw [State.rowsOf, Logs.createLogs, Logs.saveLogsRaw, hkept, List.map_map,
    List.mapIdx_eq_zipIdx_map, List.mapIdx_eq_zipIdx_map, List.map_map, List.zipIdx_map,
    List.map_map]
  rfl

theorem mem_rowsOf {stamped : Nat} {call : SendLogs} {row : Row}
    (h : row ∈ s.rowsOf config stamped call) :
    row.entry.deploymentId = config.deploymentId ∧
      row.entry.timestamp = Logs.stampOf stamped ∧
      ∃ x ∈ s.kept call.batch call.messages, row.position = x.2 ∧
        row.entry.message = GoString.text x.1 := by
  obtain ⟨n, hn, rfl⟩ := List.mem_mapIdx.mp h
  exact ⟨rfl, rfl, _, List.getElem_mem hn, rfl, rfl⟩

theorem exists_row (config : Config) (stamped : Nat) {call : SendLogs} {x : GoString × Nat}
    (hx : x ∈ s.kept call.batch call.messages) :
    ∃ row ∈ s.rowsOf config stamped call, row.position = x.2 ∧
      row.entry.timestamp = Logs.stampOf stamped := by
  obtain ⟨n, hn, rfl⟩ := List.mem_iff_getElem.mp hx
  exact ⟨_, List.mem_mapIdx.mpr ⟨n, hn, rfl⟩, rfl, rfl⟩

theorem pairwise_rowsOf {stamped : Nat} {call : SendLogs} :
    (s.rowsOf config stamped call).Pairwise fun x y => x.position < y.position := by
  have hmap : (s.rowsOf config stamped call).map Row.position =
      (s.kept call.batch call.messages).map Prod.snd := by
    rw [State.rowsOf, List.mapIdx_eq_zipIdx_map, List.map_map]
    conv_rhs => rw [← List.zipIdx_map_fst 0 (s.kept call.batch call.messages), List.map_map]
    rfl
  have hpairwise : ((s.kept call.batch call.messages).map Prod.snd).Pairwise (· < ·) :=
    List.pairwise_map.mpr pairwise_kept
  rw [← hmap] at hpairwise
  exact List.pairwise_map.mp hpairwise

/-! ## Every step -/

/-- What the API does with a batch. -/
theorem save_cases {i : Nat} (hs : Inv s) (h : step config spare s (.save i) = some s') :
    ∃ batch stamped call, s.batches[i]? = some batch ∧ batch.phase = .sending stamped ∧
      call.batch = i ∧ call.messages = batch.contents ∧
      s'.rows = s.rows ++ s.rowsOf config stamped call := by
  rw [step] at h
  split at h
  · rename_i batch call hi hcall
    split at h
    · rename_i stamped hphase
      cases h
      have hbatch := List.find?_some hcall
      rw [decide_eq_true_eq] at hbatch
      refine ⟨batch, stamped, call, hi, hphase, hbatch, ?_, rfl⟩
      rcases hs.callsOf i batch hi with ⟨hready, _⟩ | ⟨_, call', hcall', hmessages⟩
      · rw [hphase] at hready
        cases hready
      · rw [State.callsOf] at hcall'
        have hhead : (s.calls.filter fun call => call.batch = i).head? =
            s.calls.find? fun call => call.batch = i := List.head?_filter
        rw [hcall', List.head?_cons, hcall, Option.some.injEq] at hhead
        rw [← hhead, hmessages]
    · cases h
  · cases h

theorem rowsInv_step {e : Event} (hs : RowsInv config s)
    (h : step config spare s e = some s') : RowsInv config s' := by
  have hk := kept_step hs.inv hs.room h
  refine ⟨hk.inv, hk.room, fun row hrow => ?_⟩
  have hlater : ∀ {p : Nat} {message : GoString}, s.logged[p]? = some message →
      s'.logged[p]? = some message := by
    intro p message hp
    obtain ⟨more, hmore⟩ := hk.logged
    rw [← hmore, List.getElem?_append_left (List.getElem?_eq_some_iff.mp hp).1, hp]
  have hold : row ∈ s.rows → row.entry.deploymentId = config.deploymentId ∧
      ∃ message, s'.logged[row.position]? = some message ∧
        row.entry.message = GoString.text message := by
    intro hrow
    obtain ⟨hdeployment, message, hlogged, hmessage⟩ := hs.rows row hrow
    exact ⟨hdeployment, message, hlater hlogged, hmessage⟩
  by_cases hsave : ∃ i, e = .save i
  · obtain ⟨i, rfl⟩ := hsave
    obtain ⟨batch, stamped, call, hi, _, rfl, hmessages, hrows⟩ := save_cases hs.inv h
    rw [hrows, List.mem_append] at hrow
    rcases hrow with hrow | hrow
    · exact hold hrow
    · obtain ⟨hdeployment, _, x, hx, hposition, hmessage⟩ := mem_rowsOf hrow
      rw [hmessages] at hx
      obtain ⟨k, hk, hoffset⟩ := mem_kept hx
      refine ⟨hdeployment, x.1, hlater ?_, hmessage⟩
      rw [hposition, hoffset]
      exact getElem?_logged hs.inv hi hk
  · rw [(frame_step h).2 fun i hi => hsave ⟨i, hi⟩] at hrow
    exact hold hrow

theorem inOrder_iff (hs : RowsInv config s) : InOrder config s ↔
    Sorting.Tells (fun row : Row => row.entry.timestamp) Row.position s.rows := by
  rw [← Sorting.forall_sorted_iff]
  refine forall_congr' fun order => ?_
  rw [← and_imp]
  refine imp_congr_left (and_congr_right fun hperm => ?_)
  have hfilter : (s.rows.map Row.entry).filter
      (fun x => (viewer config).follows x && Logs.later none x) = s.rows.map Row.entry := by
    refine List.filter_eq_self.mpr fun x hx => ?_
    obtain ⟨row, hrow, rfl⟩ := List.mem_map.mp hx
    simp [Logs.Viewer.follows, Logs.later, viewer, (hs.rows row hrow).1]
  rw [Logs.Answers, hfilter, List.pairwise_map]
  exact and_iff_right (hperm.map _)

theorem inOrder_save {i : Nat} (hs : RowsInv config s)
    (h : step config spare s (.save i) = some s') :
    InOrder config s' ↔ InOrder config s ∧ Separate s (.save i) := by
  rw [inOrder_iff hs, inOrder_iff (rowsInv_step hs h)]
  obtain ⟨batch, stamped, call, hi, hphase, rfl, hmessages, hrows⟩ := save_cases hs.inv h
  obtain ⟨logs, contents, source, phase⟩ := batch
  subst hphase
  rw [hrows, Sorting.tells_append, Separate, hi]
  refine and_congr_right fun _ => and_congr ?_ ?_
  · have heq : ∀ x ∈ s.rowsOf config stamped call, ∀ y ∈ s.rowsOf config stamped call,
        x.entry.timestamp = y.entry.timestamp := fun x hx y hy =>
      (mem_rowsOf hx).2.1.trans (mem_rowsOf hy).2.1.symm
    rw [Sorting.tells_iff_of_eq heq pairwise_rowsOf, State.rowsOf, List.length_mapIdx, hmessages]
  · refine forall₂_congr fun row _ => ?_
    constructor
    · intro hcross x hx
      have hx : x ∈ s.kept call.batch call.messages := hmessages ▸ hx
      obtain ⟨new, hnew, hposition, hstamp⟩ := exists_row config stamped hx
      rw [← hposition, ← hstamp]
      exact hcross new hnew
    · intro hseparate new hnew
      obtain ⟨_, hstamp, x, hx, hposition, _⟩ := mem_rowsOf hnew
      rw [hmessages] at hx
      rw [hposition, hstamp]
      exact hseparate x hx

/-- A step keeps the order if and only if it meets the condition; rows that are out of order stay
so. -/
theorem inOrder_step {e : Event} (hs : RowsInv config s)
    (h : step config spare s e = some s') :
    InOrder config s' ↔ InOrder config s ∧ Separate s e := by
  by_cases hsave : ∃ i, e = .save i
  · obtain ⟨i, rfl⟩ := hsave
    exact inOrder_save hs h
  · have hrows := (frame_step h).2 fun i hi => hsave ⟨i, hi⟩
    have hseparate : Separate s e := by
      cases e with
      | save i => exact absurd ⟨i, rfl⟩ hsave
      | _ => trivial
    rw [inOrder_iff hs, inOrder_iff (rowsInv_step hs h), hrows]
    exact (and_iff_left hseparate).symm

/-- At the end of any run the rows hold logged messages, and `getLogs` lists them in the order in
which they were logged if and only if every batch was stored with at most one line, in a second
that separates it from the rows of other messages. -/
theorem logs_in_order_iff (config : Config) (spare : List GoString → List GoString) (now : Nat)
    (es : List Event) (s : State)
    (h : runEvents (step config spare) (State.initial config now) es = some s) :
    (∀ row ∈ s.rows, ∃ message, s.logged[row.position]? = some message ∧
      row.entry.message = GoString.text message) ∧
    (InOrder config s ↔
      RunsUnder (step config spare) Separate (State.initial config now) es) := by
  have hinitial : RowsInv config (State.initial config now) :=
    ⟨inv_initial now, room_initial now, fun row hrow => absurd hrow List.not_mem_nil⟩
  obtain ⟨hs, hiff⟩ := good_iff_runsUnder Separate (RowsInv config) (InOrder config)
    (fun _ _ _ hs hstep => ⟨rowsInv_step hs hstep, inOrder_step hs hstep⟩) h hinitial
  refine ⟨fun row hrow => (hs.rows row hrow).2, hiff.trans (and_iff_right ?_)⟩
  rw [inOrder_iff hinitial]
  exact fun x hx => absurd hx List.not_mem_nil

/-- Two lines of different seconds. -/
def shopSeconds : List Event :=
  [.logWithSource .system (utf8 "one"), .save 0, .ret 0, .tick 1000,
    .logWithSource .system (utf8 "two"), .save 1, .ret 1]

theorem logs_in_order_shop :
    ∃ s, runEvents (step shopConfig fun _ => []) (State.initial shopConfig 0) shopSeconds =
        some s ∧ InOrder shopConfig s := by
  have hrun : (runEvents (step shopConfig fun _ => []) (State.initial shopConfig 0)
      shopSeconds).isSome = true := by decide
  obtain ⟨s, hs⟩ := Option.isSome_iff_exists.mp hrun
  exact ⟨s, hs, (logs_in_order_iff shopConfig (fun _ => []) 0 shopSeconds s hs).2.mpr
    (by decide)⟩

/-- Two lines of one batch have one timestamp, and may be returned the other way round. -/
theorem not_logs_in_order :
    ¬∀ (config : Config) (spare : List GoString → List GoString) (now : Nat) (es : List Event)
      (s : State), runEvents (step config spare) (State.initial config now) es = some s →
        InOrder config s := by
  intro h
  have hrun : (runEvents (step shopConfig fun _ => []) (State.initial shopConfig 0)
      [.log (utf8 "one"), .log (utf8 "two"), .send 0, .save 0, .ret 0]).any (fun s =>
        decide (Lists shopConfig s s.rows.reverse ∧
          ¬s.rows.reverse.Pairwise fun x y => x.position ≤ y.position)) = true := by
    decide
  rw [Option.any_eq_true] at hrun
  obtain ⟨s, hs, hend⟩ := hrun
  obtain ⟨hlists, hpairwise⟩ := of_decide_eq_true hend
  exact hpairwise (h shopConfig (fun _ => []) 0 _ s hs _ hlists)

end StreamLogger
end Worker
end Code2Cloud
