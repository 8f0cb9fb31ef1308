import Code2Cloud.Base.Reach
import Code2Cloud.Worker.Scanner

/-!
# Streaming the logs of a pod

`streamPodLogs` opens a stream again each time it ends, and every stream begins with the
last lines of the container's log.
-/

namespace Code2Cloud
namespace Worker
namespace PodLogs

/-- A line in the container's log, with the time that `Timestamps` puts before it. -/
structure Line where
  stamp : GoString
  text : GoString
  deriving DecidableEq

def Line.bytes (line : Line) : GoString := line.stamp ++ 0x20 :: line.text

/-- `TailLines` -/
def tailLines : Nat := 100

/-- The limit that `scanner.Buffer` sets. -/
def maxLine : Nat := 1024 * 1024

/-- `strings.Index(line, "Z ")` -/
def indexOfZone : GoString → Option Nat
  | [] => none
  | c :: line =>
    if c = 0x5a ∧ line.head? = some 0x20 then some 0 else (indexOfZone line).map (· + 1)

def stripK8sTimestamp (line : GoString) : GoString :=
  match indexOfZone line with
  | some index =>
    if 0 < index ∧ index ≤ 35 ∧ line.head?.any GoString.isDigit then line.drop (index + 2)
    else line
  | none => line

/-- What is passed to `logWriter.Log`. -/
inductive Passed
  /-- A line of the container, by its place in the log. -/
  | line (index : Nat) (message : GoString)
  /-- `"⚠ Log stream disconnected, reconnecting..."` -/
  | reconnecting
  deriving DecidableEq

def Passed.index : Passed → Option Nat
  | .line index _ => some index
  | .reconnecting => none

/-- Where the loop of `streamPodLogs` is. -/
inductive Phase
  | opening
  /-- A stream that began with the line `start` has come to the line `next`. -/
  | reading (start next : Nat)
  /-- `time.After(5 * time.Second)` -/
  | sleeping
  | stopped
  deriving DecidableEq

structure State where
  written : List Line
  phase : Phase
  passed : List Passed

inductive Event
  /-- The container writes a line. -/
  | write (line : Line)
  | opened
  | openFails
  /-- The scanner returns the next line. -/
  | scan
  /-- The next line is longer than the scanner's buffer. -/
  | tooLong
  /-- The stream ends, with an error or without, after some bytes of the next line. -/
  | ends (failed : Bool) (cut : Nat)
  | wake
  /-- The context is done. -/
  | stop
  deriving DecidableEq

def State.initial : State where
  written := []
  phase := .opening
  passed := []

/-- The lines passed on, by their places in the container's log. -/
def State.delivered (s : State) : List Nat := s.passed.filterMap Passed.index

/-- A token of the scanner is logged without its timestamp unless it is empty. -/
def State.token (s : State) (index : Nat) (token : GoString) : State :=
  let line := Scanner.dropCR token
  if line = [] then s
  else { s with passed := s.passed ++ [.line index (stripK8sTimestamp line)] }

/-- `streamOnce` has returned. -/
def State.returns (s : State) (failed : Bool) : State :=
  if failed then { s with passed := s.passed ++ [.reconnecting], phase := .sleeping }
  else { s with phase := .opening }

def step (s : State) : Event → Option State
  | .write line => some { s with written := s.written ++ [line] }
  | .opened =>
    if s.phase = .opening then
      let start := s.written.length - tailLines
      some { s with phase := .reading start start }
    else none
  | .openFails => if s.phase = .opening then some (s.returns true) else none
  | .scan =>
    match s.phase with
    | .reading start next =>
      match s.written[next]? with
      | some line =>
        if line.bytes.length < maxLine then
          some { s.token next line.bytes with phase := .reading start (next + 1) }
        else none
      | none => none
    | _ => none
  | .tooLong =>
    match s.phase with
    | .reading _ next =>
      match s.written[next]? with
      | some line => if maxLine ≤ line.bytes.length then some (s.returns true) else none
      | none => none
    | _ => none
  | .ends failed cut =>
    match s.phase with
    | .reading _ next =>
      if cut = 0 then some (s.returns failed)
      else
        match s.written[next]? with
        | some line =>
          -- at the end of the input the scanner returns what is left as a last token
          if cut ≤ line.bytes.length ∧ cut < maxLine then
            some ((s.token next (line.bytes.take cut)).returns failed)
          else none
        | none => none
    | _ => none
  | .wake => if s.phase = .sleeping then some { s with phase := .opening } else none
  | .stop => some { s with phase := .stopped }

/-- The condition on a step: where a stream passes on its first line, the tail that it was opened
with begins behind every line passed on before. -/
def Fresh (s : State) : Event → Prop
  | .scan =>
    match s.phase with
    | .reading start next => next = start → ∀ index ∈ s.delivered, index < start
    | _ => True
  | .ends _ cut =>
    match s.phase with
    | .reading start next =>
      next = start → Scanner.dropCR ((s.written[next]?.map Line.bytes).getD [] |>.take cut) ≠ [] →
        ∀ index ∈ s.delivered, index < start
    | _ => True
  | _ => True

instance (s : State) (e : Event) : Decidable (Fresh s e) := by
  unfold Fresh
  split
  · split
    · infer_instance
    · exact isTrue trivial
  · split
    · infer_instance
    · exact isTrue trivial
  · exact isTrue trivial

/-- Each line is passed on at most once, and in the order of the container's log. -/
def DeliversOnce (s : State) : Prop := s.delivered.Pairwise (· < ·)

instance (s : State) : Decidable (DeliversOnce s) :=
  inferInstanceAs (Decidable (s.delivered.Pairwise (· < ·)))

/-- What a stream that has passed on a line has left behind. -/
def Behind (s : State) : Prop :=
  match s.phase with
  | .reading start next =>
    start ≤ next ∧ (DeliversOnce s → start < next → ∀ index ∈ s.delivered, index < next)
  | _ => True

variable {s s' : State}

/-! ## What a step passes on -/

theorem pairwise_concat {l : List Nat} {n : Nat} :
    (l ++ [n]).Pairwise (· < ·) ↔ l.Pairwise (· < ·) ∧ ∀ k ∈ l, k < n := by
  simp [List.pairwise_append]

theorem delivered_token (index : Nat) (token : GoString) : (s.token index token).delivered =
    if Scanner.dropCR token = [] then s.delivered else s.delivered ++ [index] := by
  rw [State.token]
  split
  · rfl
  · exact List.filterMap_append

theorem delivered_returns (failed : Bool) : (s.returns failed).delivered = s.delivered := by
  rw [State.returns]
  split
  · exact List.filterMap_append.trans (List.append_nil _)
  · rfl

theorem phase_returns (failed : Bool) {start next : Nat} :
    (s.returns failed).phase ≠ .reading start next := by
  rw [State.returns]
  split <;> exact Phase.noConfusion

/-- A whole line of the stream holds at least the blank behind its timestamp. -/
theorem dropCR_bytes (line : Line) : Scanner.dropCR line.bytes ≠ [] := by
  intro hempty
  have hlength : line.bytes.length ≤ 1 := by
    rw [Scanner.dropCR, GoString.trimSuffix] at hempty
    split at hempty
    · rw [List.take_eq_nil_iff] at hempty
      rcases hempty with hzero | hnil
      · simpa [Nat.sub_eq_zero_iff_le] using hzero
      · rw [hnil]
        exact Nat.zero_le _
    · rw [hempty]
      exact Nat.zero_le _
  obtain ⟨stamp, text⟩ := line
  have hparts : stamp = [] ∧ text = [] := by
    simp only [Line.bytes, List.length_append, List.length_cons] at hlength
    exact ⟨List.eq_nil_of_length_eq_zero (by omega), List.eq_nil_of_length_eq_zero (by omega)⟩
  rw [hparts.1, hparts.2] at hempty
  exact absurd hempty (by decide)

/-- After passing on the next line, the order is kept if and only if the line is a new one. -/
theorem pairwise_next {start next : Nat} (hs : Behind s) (hphase : s.phase = .reading start next) :
    (s.delivered ++ [next]).Pairwise (· < ·) ↔
      DeliversOnce s ∧ (next = start → ∀ index ∈ s.delivered, index < start) := by
  rw [Behind, hphase] at hs
  obtain ⟨hle, hbehind⟩ := hs
  rw [pairwise_concat]
  refine and_congr_right fun hgood => ⟨fun hnew heq => heq ▸ hnew, fun hnew => ?_⟩
  by_cases heq : next = start
  · rw [heq]
    exact hnew heq
  · exact hbehind hgood (by omega)

theorem once_scan (hs : Behind s) (h : step s .scan = some s') :
    Behind s' ∧ (DeliversOnce s' ↔ DeliversOnce s ∧ Fresh s .scan) := by
  cases hphase : s.phase with
  | reading start next =>
    simp only [step, hphase] at h
    split at h
    · rename_i line hline
      split at h
      · cases h
        have hdelivered : ({ s.token next line.bytes with phase := .reading start (next + 1) } :
            State).delivered = s.delivered ++ [next] :=
          (delivered_token next line.bytes).trans (if_neg (dropCR_bytes line))
        have hnext := pairwise_next hs hphase
        rw [Behind, hphase] at hs
        constructor
        · refine ⟨Nat.le_succ_of_le hs.1, fun hgood _ index hindex => ?_⟩
          rw [hdelivered] at hindex
          rw [DeliversOnce, hdelivered, pairwise_concat] at hgood
          rcases List.mem_append.mp hindex with hold | hnew
          · exact Nat.lt_succ_of_lt (hgood.2 index hold)
          · rw [List.mem_singleton.mp hnew]
            exact Nat.lt_succ_self _
        · rw [DeliversOnce, hdelivered, hnext, Fresh, hphase]
      · cases h
    · cases h
  | opening | sleeping | stopped =>
    simp only [step, hphase] at h
    cases h

theorem once_ends {failed : Bool} {cut : Nat} (hs : Behind s)
    (h : step s (.ends failed cut) = some s') :
    Behind s' ∧ (DeliversOnce s' ↔ DeliversOnce s ∧ Fresh s (.ends failed cut)) := by
  cases hphase : s.phase with
  | reading start next =>
    have hbehind : ∀ t : State, Behind (t.returns failed) := by
      intro t
      rw [Behind]
      split
      · rename_i heq
        exact absurd heq (phase_returns failed)
      · trivial
    simp only [step, hphase] at h
    split at h
    · rename_i hcut
      cases h
      refine ⟨hbehind s, ?_⟩
      rw [DeliversOnce, delivered_returns, Fresh, hphase]
      refine (and_iff_left fun _ hne => absurd ?_ hne).symm
      rw [hcut, List.take_zero]
      decide
    · split at h
      · rename_i line hline
        split at h
        · cases h
          refine ⟨hbehind _, ?_⟩
          have hnext := pairwise_next hs hphase
          rw [DeliversOnce, delivered_returns, delivered_token, Fresh, hphase]
          simp only [hline, Option.map_some, Option.getD_some]
          by_cases hempty : Scanner.dropCR (line.bytes.take cut) = []
          · rw [if_pos hempty]
            exact (and_iff_left fun _ hne => absurd hempty hne).symm
          · rw [if_neg hempty, hnext]
            exact and_congr_right fun _ => ⟨fun hnew heq _ => hnew heq,
              fun hnew heq => hnew heq hempty⟩
        · cases h
      · cases h
  | opening | sleeping | stopped =>
    simp only [step, hphase] at h
    cases h

/-- A step that passes on no line, and opens a stream at most. -/
theorem once_of_eq {e : Event} (hs : Behind s) (hdelivered : s'.delivered = s.delivered)
    (hphase : s'.phase = s.phase ∨ ∀ start next, s'.phase = .reading start next → start = next)
    (hfresh : Fresh s e) :
    Behind s' ∧ (DeliversOnce s' ↔ DeliversOnce s ∧ Fresh s e) := by
  refine ⟨?_, ?_⟩
  · rw [Behind, DeliversOnce, hdelivered]
    rcases hphase with hsame | hopened
    · rw [hsame]
      exact hs
    · split
      · rename_i start next heq
        have hstart := hopened start next heq
        exact ⟨Nat.le_of_eq hstart, fun _ hlt => absurd hlt (by omega)⟩
      · trivial
  · rw [DeliversOnce, hdelivered]
    exact (and_iff_left hfresh).symm

/-- A step delivers no line again if and only if it meets the condition. -/
theorem once_step {e : Event} (hs : Behind s) (h : step s e = some s') :
    Behind s' ∧ (DeliversOnce s' ↔ DeliversOnce s ∧ Fresh s e) := by
  cases e with
  | scan => exact once_scan hs h
  | ends failed cut => exact once_ends hs h
  | write line =>
    cases h
    exact once_of_eq hs rfl (Or.inl rfl) trivial
  | opened =>
    rw [step] at h
    split at h
    · cases h
      refine once_of_eq hs rfl (Or.inr fun start next heq => ?_) trivial
      cases heq
      rfl
    · cases h
  | openFails =>
    rw [step] at h
    split at h
    · cases h
      exact once_of_eq hs (delivered_returns true)
        (Or.inr fun start next heq => absurd heq (phase_returns true)) trivial
    · cases h
  | tooLong =>
    rw [step] at h
    split at h
    · split at h
      · split at h
        · cases h
          exact once_of_eq hs (delivered_returns true)
            (Or.inr fun start next heq => absurd heq (phase_returns true)) trivial
        · cases h
      · cases h
    · cases h
  | wake =>
    rw [step] at h
    split at h
    · cases h
      exact once_of_eq hs rfl (Or.inr fun start next heq => by cases heq) trivial
    · cases h
  | stop =>
    cases h
    exact once_of_eq hs rfl (Or.inr fun start next heq => by cases heq) trivial

/-- In any run, each container line is passed on at most once and in order if and only if every
stream that passes on a line was opened with a tail that begins behind all lines passed on
before. -/
theorem delivers_once_iff (es : List Event) (s : State)
    (h : runEvents step State.initial es = some s) :
    DeliversOnce s ↔ RunsUnder step Fresh State.initial es := by
  have hinitial : Behind State.initial := trivial
  obtain ⟨_, hiff⟩ := good_iff_runsUnder Fresh Behind DeliversOnce
    (fun _ _ _ hs hstep => once_step hs hstep) h hinitial
  exact hiff.trans (and_iff_right List.Pairwise.nil)

def shopLine : Line where
  stamp := utf8 "2026-02-08T00:54:51.145175868Z"
  text := utf8 "listening on 3000"

example : stripK8sTimestamp shopLine.bytes = shopLine.text := by decide

theorem delivers_once_shop :
    ∃ s, runEvents step State.initial [.write shopLine, .opened, .scan, .write shopLine, .scan] =
        some s ∧ DeliversOnce s := by
  have hrun : (runEvents step State.initial
      [.write shopLine, .opened, .scan, .write shopLine, .scan]).isSome = true := by
    decide
  obtain ⟨s, hs⟩ := Option.isSome_iff_exists.mp hrun
  exact ⟨s, hs, (delivers_once_iff _ s hs).mpr (by decide)⟩

/-- One line, and a stream that ends without an error: the next stream begins with it again. -/
theorem not_delivers_once :
    ¬∀ (es : List Event) (s : State), runEvents step State.initial es = some s →
      DeliversOnce s := by
  intro h
  have hrun : (runEvents step State.initial
      [.write shopLine, .opened, .scan, .ends false 0, .opened, .scan]).any (fun s =>
        !decide (DeliversOnce s)) = true := by decide
  rw [Option.any_eq_true] at hrun
  obtain ⟨s, hs, hend⟩ := hrun
  rw [Bool.not_eq_true', decide_eq_false_iff_not] at hend
  exact hend (h _ s hs)

end PodLogs
end Worker
end Code2Cloud
