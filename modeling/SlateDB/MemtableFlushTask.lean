import SlateDB.Types

/-! # The memtable flush task

`spawnMemtableFlushTask`'s loop, which waits for a manifest poll tick or a message on the buffered
`memtableFlushNotifierCh` until it has received `Shutdown` and found the channel empty, then calls
`writeManifestSafely` once. Its calls on `MemtableFlusher` are recorded in order. -/
namespace SlateDB

/-- `MemtableFlushThreadMsg`, a Go `int`. -/
abbrev MemtableFlushThreadMsg := ℤ

/-- `Shutdown`, the first constant of the `iota + 1` block. -/
def shutdown : MemtableFlushThreadMsg := 1

/-- `FlushImmutableMemtables`. -/
def flushImmutableMemtables : MemtableFlushThreadMsg := 2

/-- The calls the task makes on its `MemtableFlusher`. -/
inductive FlusherCall
  | loadManifest
  | flushImmMemtablesToL0
  | writeManifestSafely
  deriving DecidableEq

/-- The memtable flush task and its channel, with ghost records of what was sent, received and
called, in order. -/
structure FlushTask where
  isShutdown : Bool
  /-- Whether the task has left its loop and made the final `writeManifestSafely`. -/
  exited : Bool
  /-- `memtableFlushNotifierCh`: the messages in its buffer, oldest first. -/
  channel : List MemtableFlushThreadMsg
  sent : List MemtableFlushThreadMsg
  received : List MemtableFlushThreadMsg
  /-- The messages sent before the task left its loop, recorded when it does. -/
  sentBeforeExit : List MemtableFlushThreadMsg
  calls : List FlusherCall
  deriving DecidableEq

/-- What can happen next: a sender adds a message, or the task takes its next step. -/
inductive FlushTaskEvent
  | send (val : MemtableFlushThreadMsg)
  /-- The `select` takes a tick of the ticker. -/
  | tick
  /-- The `select` takes the oldest message. -/
  | receive
  /-- The loop's condition fails and the task leaves it. -/
  | exit
  deriving DecidableEq

namespace FlushTask

/-- The `for` loop's condition, `!(isShutdown && len(memtableFlushNotifierCh) == 0)`. -/
def loops (t : FlushTask) : Bool := !(t.isShutdown && t.channel.length == 0)

/-- The `select`'s message case, on the message `val` it received. -/
def handle (t : FlushTask) (val : MemtableFlushThreadMsg) : FlushTask :=
  let t := { t with received := t.received ++ [val] }
  if val = shutdown then { t with isShutdown := true }
  else if val = flushImmutableMemtables then { t with calls := t.calls ++ [.flushImmMemtablesToL0] }
  else t

@[simp] lemma handle_channel (t : FlushTask) (val : MemtableFlushThreadMsg) :
    (t.handle val).channel = t.channel := by
  unfold handle; split_ifs <;> rfl

@[simp] lemma handle_exited (t : FlushTask) (val : MemtableFlushThreadMsg) :
    (t.handle val).exited = t.exited := by
  unfold handle; split_ifs <;> rfl

@[simp] lemma handle_sent (t : FlushTask) (val : MemtableFlushThreadMsg) :
    (t.handle val).sent = t.sent := by
  unfold handle; split_ifs <;> rfl

@[simp] lemma handle_received (t : FlushTask) (val : MemtableFlushThreadMsg) :
    (t.handle val).received = t.received ++ [val] := by
  unfold handle; split_ifs <;> rfl

/-- One event, when it can happen. -/
def step (t : FlushTask) : FlushTaskEvent → Option FlushTask
  | .send val => some { t with channel := t.channel ++ [val], sent := t.sent ++ [val] }
  | .tick => if !t.exited && t.loops then some { t with calls := t.calls ++ [.loadManifest] } else none
  | .receive =>
    match t.exited, t.loops, t.channel with
    | false, true, val :: rest => some ({ t with channel := rest }.handle val)
    | _, _, _ => none
  | .exit =>
    if !t.exited && !t.loops then
      some { t with exited := true, sentBeforeExit := t.sent, calls := t.calls ++ [.writeManifestSafely] }
    else none

/-- The task as it starts, with an empty channel. -/
def init : FlushTask := ⟨false, false, [], [], [], [], []⟩

/-- The states reachable from the start by any interleaving of sends and the task's steps. -/
inductive Reachable : FlushTask → Prop
  | init : Reachable init
  | step {t t' : FlushTask} (ev : FlushTaskEvent) : Reachable t → step t ev = some t' → Reachable t'

/-- A trace of events replayed from `t`. -/
def run : FlushTask → List FlushTaskEvent → Option FlushTask
  | t, [] => some t
  | t, ev :: evs => (step t ev).bind (run · evs)

lemma run_append (t : FlushTask) (evs evs' : List FlushTaskEvent) :
    run t (evs ++ evs') = (run t evs).bind (run · evs') := by
  induction evs generalizing t with
  | nil => rfl
  | cons ev evs ih => simp only [List.cons_append, run, List.append_eq, ih, Option.bind_assoc]

lemma reachable_of_run {t t' : FlushTask} {evs : List FlushTaskEvent} (ht : Reachable t)
    (h : run t evs = some t') : Reachable t' := by
  induction evs generalizing t with
  | nil => cases h; exact ht
  | cons ev evs ih =>
    obtain ⟨t₁, h₁, h₂⟩ := Option.bind_eq_some.mp h
    exact ih (.step ev ht h₁) h₂

lemma shutdown_ne_flushImmutableMemtables : shutdown ≠ flushImmutableMemtables := by decide

/-- The calls other than the polls: one `flushImmMemtablesToL0` per `FlushImmutableMemtables`
received, then the final `writeManifestSafely` once the task has left its loop. -/
def flushCalls (received : List MemtableFlushThreadMsg) (exited : Bool) : List FlusherCall :=
  (received.filter (· = flushImmutableMemtables)).map (fun _ => .flushImmMemtablesToL0) ++
    if exited then [.writeManifestSafely] else []

lemma flushCalls_append (l l' : List MemtableFlushThreadMsg) (exited : Bool) :
    flushCalls (l ++ l') exited = flushCalls l false ++ flushCalls l' exited := by
  simp only [flushCalls, List.filter_append, List.map_append, List.append_assoc, Bool.false_eq_true,
    if_false, List.nil_append]

/-- The message case on `val` makes the call `flushCalls` counts for it, and sets the shutdown
flag exactly on `Shutdown`. -/
lemma handle_calls (t : FlushTask) (val : MemtableFlushThreadMsg) :
    (t.handle val).calls = t.calls ++ flushCalls [val] false ∧
      ((t.handle val).isShutdown = true ↔ t.isShutdown = true ∨ val = shutdown) := by
  unfold handle
  split_ifs with hs hf
  · subst hs; simp [flushCalls, shutdown_ne_flushImmutableMemtables]
  · subst hf; simp [flushCalls, Ne.symm shutdown_ne_flushImmutableMemtables]
  · simp [flushCalls, hf, hs]

/-- The invariant of the task and its channel. -/
structure Inv (t : FlushTask) : Prop where
  /-- The channel loses, duplicates and reorders nothing. -/
  fifo : t.received ++ t.channel = t.sent
  isShutdown : t.isShutdown = true ↔ shutdown ∈ t.received
  calls : t.calls.filter (· ≠ .loadManifest) = flushCalls t.received t.exited
  exited : t.exited = true →
    shutdown ∈ t.received ∧ t.received = t.sentBeforeExit ∧ t.calls.getLast? = some .writeManifestSafely

lemma inv_init : Inv init := ⟨rfl, by simp [init], rfl, nofun⟩

/-- The message case keeps the invariant. -/
lemma Inv.handle {t : FlushTask} {val : MemtableFlushThreadMsg} {rest : List MemtableFlushThreadMsg}
    (hi : Inv t) (hc : t.channel = val :: rest) (hx : t.exited = false) :
    Inv ({ t with channel := rest }.handle val) := by
  obtain ⟨hcalls, hshut⟩ := handle_calls { t with channel := rest } val
  refine ⟨?_, ?_, ?_, ?_⟩
  · rw [handle_received, handle_channel, handle_sent, List.append_assoc, ← hi.fifo, hc]; rfl
  · rw [hshut, handle_received, List.mem_append, ← hi.isShutdown, List.mem_singleton, @eq_comm _ shutdown]
  · rw [hcalls, handle_received, handle_exited, List.filter_append, hi.calls, hx, flushCalls_append]
    simp [flushCalls]
  · rw [handle_exited]; exact fun h => absurd (hx.symm.trans h) Bool.false_ne_true

/-- Every event keeps the invariant. -/
lemma Inv.step {t t' : FlushTask} {ev : FlushTaskEvent} (hi : Inv t) (h : step t ev = some t') :
    Inv t' := by
  cases ev with
  | send val =>
    cases h
    exact ⟨by rw [← List.append_assoc, hi.fifo], hi.isShutdown, hi.calls, hi.exited⟩
  | tick =>
    simp only [FlushTask.step, Bool.and_eq_true, Bool.not_eq_true'] at h
    split_ifs at h with hr
    cases h
    refine ⟨hi.fifo, hi.isShutdown, by simpa [List.filter_append] using hi.calls, ?_⟩
    simp [hr.1]
  | receive =>
    simp only [FlushTask.step] at h
    split at h
    · rename_i val rest hx _ hc
      cases h
      exact hi.handle hc hx
    · cases h
  | exit =>
    simp only [FlushTask.step, Bool.and_eq_true, Bool.not_eq_true'] at h
    split_ifs at h with hr
    cases h
    obtain ⟨hx, hl⟩ := hr
    simp only [loops, Bool.not_eq_false', Bool.and_eq_true, beq_iff_eq, List.length_eq_zero] at hl
    have hcalls := hi.calls
    simp [flushCalls, hx] at hcalls
    refine ⟨hi.fifo, hi.isShutdown, ?_, fun _ => ⟨hi.isShutdown.mp hl.1, ?_, by simp⟩⟩
    · simp [List.filter_append, hcalls, flushCalls]
    · rw [← hi.fifo, hl.2, List.append_nil]

lemma inv_of_reachable {t : FlushTask} (h : Reachable t) : Inv t := by
  induction h with
  | init => exact inv_init
  | step ev _ hs ih => exact ih.step hs

/-- Once the task has left its loop, a step changes neither what it received nor what it
called: a message sent after the exit stays in the channel for good. -/
lemma step_of_exited {t t' : FlushTask} {ev : FlushTaskEvent} (hx : t.exited = true)
    (h : step t ev = some t') : t'.exited = true ∧ t'.received = t.received ∧ t'.calls = t.calls := by
  cases ev with
  | send val => cases h; exact ⟨hx, rfl, rfl⟩
  | tick => simp [step, hx] at h
  | receive => simp [step, hx] at h
  | exit => simp [step, hx] at h

/-- Receiving every message in the channel, one `select` each, empties it into `received`. -/
lemma run_receive_all {t : FlushTask} (hx : t.exited = false) :
    ∃ t', run t (List.replicate t.channel.length .receive) = some t' ∧ t'.exited = false ∧
      t'.channel = [] ∧ t'.received = t.received ++ t.channel ∧ t'.sent = t.sent ∧
      (t'.isShutdown = true ↔ t.isShutdown = true ∨ shutdown ∈ t.channel) ∧
      t'.calls = t.calls ++ flushCalls t.channel false := by
  obtain ⟨l, hl⟩ : ∃ l, t.channel = l := ⟨_, rfl⟩
  induction l generalizing t with
  | nil => exact ⟨t, by rw [hl]; rfl, hx, hl, by simp [hl], rfl, by simp [hl], by simp [hl, flushCalls]⟩
  | cons v l ih =>
    have hstep : step t .receive = some ({ t with channel := l }.handle v) := by
      simp [step, hx, loops, hl]
    obtain ⟨hcalls, hshut⟩ := handle_calls { t with channel := l } v
    obtain ⟨t', hrun, hx', hc', hr', hsent', hs', hcalls'⟩ :=
      ih (t := { t with channel := l }.handle v) (by simp [hx]) (by simp)
    refine ⟨t', ?_, hx', hc', ?_, by rw [hsent']; simp, ?_, ?_⟩
    · rw [handle_channel] at hrun
      rw [hl, List.length_cons, List.replicate_succ, run, hstep]; exact hrun
    · rw [hr', hl]; simp
    · rw [hs', hshut, handle_channel, hl, List.mem_cons, @eq_comm _ shutdown v, or_assoc]
    · rw [hcalls', hcalls, handle_channel, hl, List.append_assoc, ← flushCalls_append]; rfl

end FlushTask

open FlushTask

/-- The memtable flush task receives every message in order, calls `flushImmMemtablesToL0` for each
request, and exits only once `Shutdown` and everything sent before its exit are received. -/
theorem flushTask_drains_before_exit {t : FlushTask} (h : Reachable t) :
    t.received ++ t.channel = t.sent ∧
    t.calls.filter (· ≠ .loadManifest) = flushCalls t.received t.exited ∧
    (t.exited = true → shutdown ∈ t.received ∧ t.received = t.sentBeforeExit ∧
      t.calls.getLast? = some .writeManifestSafely ∧
      ∀ ev t', step t ev = some t' → t'.received = t.received ∧ t'.calls = t.calls) := by
  have hi := inv_of_reachable h
  refine ⟨hi.fifo, hi.calls, fun hx => ⟨(hi.exited hx).1, (hi.exited hx).2.1, (hi.exited hx).2.2,
    fun ev t' hs => (step_of_exited hx hs).2⟩⟩

/-- A flush request and `Shutdown`, then a flush request sent after the task has left its loop:
the first is handled, the second stays in the channel. -/
def lateFlushTrace : List FlushTaskEvent :=
  [.send flushImmutableMemtables, .send shutdown, .tick, .receive, .receive, .exit,
    .send flushImmutableMemtables]

theorem flushTask_drains_before_exit_late_request :
    ∃ t, Reachable t ∧ t.exited = true ∧ t.channel = [flushImmutableMemtables] ∧
      t.received ++ t.channel = t.sent ∧
      t.calls.filter (· ≠ .loadManifest) = flushCalls t.received t.exited ∧
      (t.exited = true → shutdown ∈ t.received ∧ t.received = t.sentBeforeExit ∧
        t.calls.getLast? = some .writeManifestSafely ∧
        ∀ ev t', step t ev = some t' → t'.received = t.received ∧ t'.calls = t.calls) :=
  have hr : Reachable _ := reachable_of_run .init (rfl : run init lateFlushTrace = some _)
  ⟨_, hr, rfl, rfl, flushTask_drains_before_exit hr⟩

/-- Once `Shutdown` is sent, the task can receive everything queued and exit, having served every
request and made the final `writeManifestSafely`. -/
theorem flushTask_exits_after_shutdown {t : FlushTask} (h : Reachable t) (hx : t.exited = false)
    (hs : shutdown ∈ t.sent) :
    ∃ t', run t (List.replicate t.channel.length .receive ++ [.exit]) = some t' ∧
      t'.exited = true ∧ t'.channel = [] ∧ t'.received = t.sent ∧
      t'.calls = t.calls ++ flushCalls t.channel true := by
  have hi := inv_of_reachable h
  obtain ⟨t₁, hrun, hx₁, hc₁, hr₁, -, hs₁, hcalls₁⟩ := run_receive_all hx
  have hshut : t₁.isShutdown = true := by
    rw [← hi.fifo, List.mem_append, ← hi.isShutdown] at hs
    exact hs₁.mpr hs
  refine ⟨{ t₁ with exited := true, sentBeforeExit := t₁.sent, calls := t₁.calls ++ [.writeManifestSafely] },
    ?_, rfl, hc₁, by rw [hr₁, hi.fifo], ?_⟩
  · rw [run_append, hrun]
    simp [run, step, hx₁, loops, hshut, hc₁]
  · rw [hcalls₁, ← List.nil_append t.channel, flushCalls_append, List.nil_append]
    simp [flushCalls]

/-- A flush request and `Shutdown` still in the channel after a poll. -/
def queuedShutdownTrace : List FlushTaskEvent :=
  [.send flushImmutableMemtables, .tick, .send shutdown]

theorem flushTask_exits_after_shutdown_queued :
    ∃ t, Reachable t ∧ t.exited = false ∧ shutdown ∈ t.sent ∧
      t.channel = [flushImmutableMemtables, shutdown] ∧
      ∃ t', run t (List.replicate t.channel.length .receive ++ [.exit]) = some t' ∧
        t'.exited = true ∧ t'.channel = [] ∧ t'.received = t.sent ∧
        t'.calls = t.calls ++ flushCalls t.channel true :=
  have hr : Reachable _ := reachable_of_run .init (rfl : run init queuedShutdownTrace = some _)
  ⟨_, hr, rfl, by decide, rfl, flushTask_exits_after_shutdown hr rfl (by decide)⟩

end SlateDB
