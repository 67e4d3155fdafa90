import SlateDB.Flush

/-! # The flush tasks under interleaving

Each `FlushWAL` execution and each `flushImmMemtablesToL0` run is a thread whose place is the
next operation of `flush.go` it performs, interleaved with client writes and freezes. Each step
says whether its upload succeeds and where its iterator fails; ghost records keep what happened. -/
namespace SlateDB

/-- Where a `FlushWAL` execution stands. -/
inductive WalFlushPc
  /-- Not running: its next step is a new `FlushWAL`, which freezes the WAL. -/
  | idle
  /-- At `OldestImmWAL`, the head of `flushImmWALs`'s loop. -/
  | loop
  /-- At `flushImmWAL` of the ImmWAL it read. -/
  | upload (immWal : ImmutableWAL)
  /-- At `PopImmWAL`. -/
  | pop (immWal : ImmutableWAL)
  /-- At `db.state.Memtable()`, the memtable `flushImmWALToMemtable` is passed. -/
  | memtable (immWal : ImmutableWAL)
  /-- In `flushImmWALToMemtable`, with the entries still to put into memtable `seq`. -/
  | replay (immWal : ImmutableWAL) (seq : ℕ) (rest : List RowEntry)
  /-- At `maybeFreezeMemtable`. -/
  | freeze (immWal : ImmutableWAL)
  /-- At `NotifyWALFlushed`. -/
  | notify (immWal : ImmutableWAL)
  deriving DecidableEq

/-- Where a `flushImmMemtablesToL0` run stands. -/
inductive MemFlushPc
  /-- Not running: its next step starts a run. -/
  | idle
  /-- At `OldestImmMemtable`, the head of the loop. -/
  | loop
  /-- At `flushImmTable` of the ImmMemtable it read. -/
  | write (imm : ImmutableMemtable)
  /-- At `MoveImmMemtableToL0`. -/
  | move (imm : ImmutableMemtable) (h : Handle)
  /-- At `writeManifestSafely`. -/
  | manifest
  deriving DecidableEq

/-- The world the flushers act on, each thread's place, and ghost records, in order. -/
structure Machine where
  world : FlushWorld
  walFlushers : List WalFlushPc
  memFlushers : List MemFlushPc
  /-- The value the next `ulid.Make()` returns. -/
  nextULID : ℕ
  /-- Every ImmWAL frozen so far. -/
  frozen : List ImmutableWAL
  /-- The ids of the ImmWALs that `PopImmWAL` removed. -/
  popped : List ℕ
  /-- The ids passed to `SetLastWalID`. -/
  replays : List ℕ
  /-- The memtables that `MoveImmMemtableToL0` removed from the queue, by `seq`. -/
  removed : List ℕ
  /-- For each L0 SST, newest first, the memtable it was written from, by `seq`. -/
  l0Sources : List ℕ
  deriving DecidableEq

/-- What can happen next. -/
inductive Event
  /-- A client's `Put` or `Delete` on the live WAL. -/
  | write (e : RowEntry)
  /-- The freeze of a client's `FlushMemtableToL0`, which is unconditional. -/
  | freezeMemtable
  /-- The next step of WAL flusher `t`; an upload in it succeeds when `ok`, and an iterator it
  opens fails at `fail`, if given. -/
  | walFlusher (t : ℕ) (ok : Bool) (fail : Option (ℕ × Err))
  /-- The next step of memtable flusher `t`; an upload or manifest write in it succeeds when
  `ok`, and an iterator it opens fails at `fail`, if given. -/
  | memFlusher (t : ℕ) (ok : Bool) (fail : Option (ℕ × Err))
  deriving DecidableEq

/-- Where the iterator that the event's step opens fails, if it does. -/
def Event.iterFail : Event → Option (ℕ × Err)
  | .walFlusher _ _ fail | .memFlusher _ _ fail => fail
  | _ => none

/-- The failures one flusher step meets: an upload succeeds when `ok`, and every iterator fails
at `fail`, if given. -/
def stepEnv (l0SSTSizeBytes : ℕ) (ok : Bool) (fail : Option (ℕ × Err)) : FlushEnv :=
  ⟨l0SSTSizeBytes, fun _ => fail, fun _ => fail, fun _ => fail, fun _ => ok⟩

/-- An upload that succeeds when `ok`, from iterators that do not fail. -/
def uploadEnv (l0SSTSizeBytes : ℕ) (ok : Bool) : FlushEnv := stepEnv l0SSTSizeBytes ok none

@[simp] lemma stepEnv_none (l0SSTSizeBytes : ℕ) (ok : Bool) :
    stepEnv l0SSTSizeBytes ok none = uploadEnv l0SSTSizeBytes ok := rfl

namespace Machine

/-- The machine with the DB state changed by `f`. -/
def mapState (m : Machine) (f : DBState → DBState) : Machine :=
  { m with world := { m.world with state := f m.world.state } }

/-- One step of a WAL flusher at `pc`: its next place and the machine after the step. -/
def walFlusherStep (limit : ℕ) (ok : Bool) (fail : Option (ℕ × Err)) (m : Machine) :
    WalFlushPc → WalFlushPc × Machine
  | .idle =>
    let s := m.world.state
    (.loop, { m.mapState DBState.freezeWAL with
      frozen := m.frozen ++ if s.wal.isEmpty then [] else [⟨s.nextWalSSTID, s.wal⟩] })
  | .loop =>
    match m.world.state.oldestImmWAL with
    | none => (.idle, m)
    | some immWal => (.upload immWal, m)
  | .upload immWal =>
    match flushImmWAL (stepEnv limit ok fail) m.world immWal with
    | .error _ => (.idle, m)
    | .ok (_, w) => (.pop immWal, { m with world := w })
  | .pop immWal =>
    (.memtable immWal, { m.mapState DBState.popImmWAL with
      popped := m.popped ++ (m.world.state.immWALs.head?.map (·.id)).toList })
  | .memtable immWal =>
    (.replay immWal m.world.state.memtable.seq (immWal.table.iterEntries fail), m)
  | .replay immWal seq [] =>
    (.freeze immWal, { m.mapState (·.setLastWalID seq immWal.id) with
      replays := m.replays ++ [immWal.id] })
  | .replay immWal seq (e :: rest) => (.replay immWal seq rest, m.mapState (·.putMemtable seq e))
  | .freeze immWal => (.notify immWal, m.mapState (·.maybeFreezeMemtable limit immWal.id))
  | .notify immWal =>
    (.loop, { m with world := { m.world with notified := m.world.notified ++ [immWal.id] } })

/-- One step of a memtable flusher at `pc`. -/
def memFlusherStep (ok : Bool) (fail : Option (ℕ × Err)) (m : Machine) :
    MemFlushPc → MemFlushPc × Machine
  | .idle => (.loop, m)
  | .loop =>
    match m.world.state.oldestImmMemtable with
    | none => (.idle, m)
    | some imm => (.write imm, m)
  | .write imm =>
    let id := newIDCompacted (toString m.nextULID)
    match flushImmTable (stepEnv 0 ok fail) m.world id ((m.world.state.table imm.seq).iterRun fail) with
    | .error _ => (.idle, { m with nextULID := m.nextULID + 1 })
    | .ok (h, w) => (.move imm h, { m with world := w, nextULID := m.nextULID + 1 })
  | .move imm h =>
    (.manifest, { m.mapState (·.moveImmMemtableToL0 imm h) with
      removed := m.removed ++ (m.world.state.immMemtables.head?.map (·.seq)).toList
      l0Sources := imm.seq :: m.l0Sources })
  | .manifest => (if ok then .loop else .idle, m)

@[simp] lemma walFlusherStep_memFlushers (limit : ℕ) (ok : Bool) (fail : Option (ℕ × Err))
    (m : Machine) (pc : WalFlushPc) : (walFlusherStep limit ok fail m pc).2.memFlushers = m.memFlushers := by
  cases pc with
  | loop | upload => simp only [walFlusherStep]; split <;> rfl
  | replay W seq rest => cases rest <;> rfl
  | _ => rfl

@[simp] lemma memFlusherStep_walFlushers (ok : Bool) (fail : Option (ℕ × Err)) (m : Machine)
    (pc : MemFlushPc) : (memFlusherStep ok fail m pc).2.walFlushers = m.walFlushers := by
  cases pc <;> simp only [memFlusherStep] <;> (try split) <;> rfl

/-- One event, when it can happen. -/
def step (limit : ℕ) (m : Machine) : Event → Option Machine
  | .write e => some (m.mapState fun s => { s with wal := s.wal.putEntry e })
  | .freezeMemtable => some (m.mapState fun s => s.freezeMemtable s.memtable.lastWalID)
  | .walFlusher t ok fail =>
    m.walFlushers[t]?.map fun pc =>
      let r := walFlusherStep limit ok fail m pc
      { r.2 with walFlushers := m.walFlushers.set t r.1 }
  | .memFlusher t ok fail =>
    m.memFlushers[t]?.map fun pc =>
      let r := memFlusherStep ok fail m pc
      { r.2 with memFlushers := m.memFlushers.set t r.1 }

/-- An empty database with the given numbers of WAL flushers and memtable flushers, all idle. -/
def init (walThreads memThreads : ℕ) : Machine :=
  ⟨⟨⟨KVTable.empty, ⟨0, 0⟩, [], [], [KVTable.empty], 1, 0, []⟩, [], []⟩,
    List.replicate walThreads .idle, List.replicate memThreads .idle, 0, [], [], [], [], []⟩

/-- The machines reachable from `start` by any interleaving of events. -/
inductive Reachable (limit : ℕ) (start : Machine) : Machine → Prop
  | init : Reachable limit start start
  | step {m m' : Machine} (ev : Event) :
      Reachable limit start m → step limit m ev = some m' → Reachable limit start m'

/-- A trace of events replayed from `m`. -/
def run (limit : ℕ) : Machine → List Event → Option Machine
  | m, [] => some m
  | m, ev :: evs => (step limit m ev).bind (run limit · evs)

lemma reachable_of_run {limit : ℕ} {start m m' : Machine} {evs : List Event}
    (hm : Reachable limit start m) (h : run limit m evs = some m') : Reachable limit start m' := by
  induction evs generalizing m with
  | nil => cases h; exact hm
  | cons ev evs ih =>
    simp only [run, Option.bind_eq_some] at h
    obtain ⟨m₁, h₁, h₂⟩ := h
    exact ih (.step ev hm h₁) h₂

/-- A property that a trace from `start` ends in holds of some reachable machine. -/
lemma exists_reachable_of_run {limit : ℕ} {start : Machine} {evs : List Event}
    {p : Machine → Prop} [DecidablePred p]
    (h : (run limit start evs).map (fun m => decide (p m)) = some true) :
    ∃ m, Reachable limit start m ∧ p m := by
  cases hr : run limit start evs with
  | none => simp [hr] at h
  | some m =>
    simp only [hr, Option.map_some', Option.some.injEq, decide_eq_true_eq] at h
    exact ⟨m, reachable_of_run .init hr, h⟩

lemma run_append {limit : ℕ} (m : Machine) (evs evs' : List Event) :
    run limit m (evs ++ evs') = (run limit m evs).bind (run limit · evs') := by
  induction evs generalizing m with
  | nil => rfl
  | cons ev evs ih => simp only [List.cons_append, run, List.append_eq, ih, Option.bind_assoc]

/-- Only the freeze of a `FlushWAL` records an ImmWAL as frozen, after those frozen before. -/
lemma walFlusherStep_frozen (limit : ℕ) (ok : Bool) (fail : Option (ℕ × Err)) (m : Machine)
    (pc : WalFlushPc) : m.frozen <+: (walFlusherStep limit ok fail m pc).2.frozen := by
  cases pc with
  | idle => exact List.prefix_append _ _
  | loop | upload => simp only [walFlusherStep]; split <;> exact List.prefix_refl _
  | replay W seq rest => cases rest <;> exact List.prefix_refl _
  | _ => exact List.prefix_refl _

@[simp] lemma memFlusherStep_frozen (ok : Bool) (fail : Option (ℕ × Err)) (m : Machine)
    (pc : MemFlushPc) : (memFlusherStep ok fail m pc).2.frozen = m.frozen := by
  cases pc <;> simp only [memFlusherStep] <;> (try split) <;> rfl

/-- The record of frozen ImmWALs only grows, at its end. -/
lemma Reachable.frozen_prefix {limit : ℕ} {start m : Machine} (h : Reachable limit start m) :
    start.frozen <+: m.frozen := by
  induction h with
  | init => exact List.prefix_refl _
  | step ev _ hs ih =>
    refine ih.trans ?_
    cases ev with
    | write | freezeMemtable => cases hs; exact List.prefix_refl _
    | walFlusher t ok fail =>
      obtain ⟨pc, -, rfl⟩ := Option.map_eq_some'.mp hs
      exact walFlusherStep_frozen limit ok fail _ pc
    | memFlusher t ok fail =>
      obtain ⟨pc, -, rfl⟩ := Option.map_eq_some'.mp hs
      simp only [memFlusherStep_frozen, List.prefix_refl]

/-- The ids of the SSTs in the bucket. -/
def uploaded (m : Machine) : List ID := m.world.objects.map Prod.fst

/-- The last write of `k` among the ImmWALs frozen so far with an id up to the last compacted
WAL id: what L0 and the compacted runs must give back for `k` on a reopen. -/
def compactedWrite (m : Machine) (k : Bytes) : Option ValueDeletable :=
  ((m.frozen.filter (·.id ≤ m.world.state.lastCompactedWalSSTID)).filterMap (·.table.get k)).getLast?

/-- `k` resolved through L0, front first: its value in the first L0 SST that holds it. -/
def l0Get (m : Machine) (k : Bytes) : Option Bytes :=
  (m.world.state.l0.filterMap fun h => (m.world.objects.lookup h.id).bind (·.lookup k)).head?

end Machine

open Machine

/-- One WAL flusher and one memtable flusher. The ImmWAL `W1` of two writes is being replayed
into memtable 0 when a client's freeze queues it; the memtable flusher writes its SST, holding
the first write only, before the replay puts the second. A second ImmWAL then freezes memtable
1 under WAL id 2, and its flush moves the last compacted WAL id to 2. -/
def lateReplayTrace : List Event :=
  [.write ⟨[1], ⟨[7], false⟩⟩, .write ⟨[2], ⟨[8], false⟩⟩] ++
    List.replicate 6 (.walFlusher 0 true none) ++ [.freezeMemtable] ++ List.replicate 3 (.memFlusher 0 true none) ++
    List.replicate 4 (.walFlusher 0 true none) ++ List.replicate 2 (.memFlusher 0 true none) ++
    [.write ⟨[3], ⟨[9], false⟩⟩] ++ List.replicate 10 (.walFlusher 0 true none) ++
    List.replicate 3 (.memFlusher 0 true none)

/-- Two writes, each frozen by its own `FlushWAL`, after which both executions read the same
head `W1`, both upload it, and both pop. -/
def doublePopTrace : List Event :=
  [.write ⟨[1], ⟨[7], false⟩⟩, .walFlusher 0 true none, .write ⟨[2], ⟨[8], false⟩⟩,
    .walFlusher 1 true none, .walFlusher 0 true none, .walFlusher 1 true none, .walFlusher 0 true none,
    .walFlusher 1 true none, .walFlusher 0 true none, .walFlusher 1 true none]

/-- Both parts of the recovery watermark's soundness fail: one with a flusher of each kind, the
other with two concurrent `FlushWAL` executions. -/
theorem flush_tasks_break_recovery_watermark :
    (∃ m, Reachable 1 (init 1 1) m ∧
      m.compactedWrite [2] = some ⟨[8], false⟩ ∧ m.l0Get [2] = none) ∧
    ∃ m, Reachable 1000 (init 2 0) m ∧ ∃ W ∈ m.frozen,
      m.world.state.lastCompactedWalSSTID < W.id ∧ W ∉ m.world.state.immWALs ∧
        newIDWal W.id ∉ m.uploaded :=
  ⟨@exists_reachable_of_run 1 (init 1 1) lateReplayTrace _ _ (by decide),
    @exists_reachable_of_run 1000 (init 2 0) doublePopTrace _ _ (by decide)⟩

/-- After the double pop, both executions replay `W1` into the memtable. -/
def doubleReplayTrace : List Event :=
  doublePopTrace ++ List.replicate 3 (.walFlusher 0 true none) ++
    List.replicate 3 (.walFlusher 1 true none)

/-- Two concurrent `FlushWAL` executions: one pops `W2`, which it never uploaded, and `W1` is
replayed into the memtable twice. -/
theorem concurrent_flushWALs_pop_unwritten_imm_wal :
    ∃ m, Reachable 1000 (init 2 0) m ∧
      (∃ id ∈ m.popped, newIDWal id ∉ m.uploaded) ∧ m.replays = [1, 1] :=
  @exists_reachable_of_run 1000 (init 2 0) doubleReplayTrace _ _ (by decide)

/-- A write replayed into memtable 0 and a second into memtable 1, each frozen by a client, so
that ImmMemtables 0 and 1 are queued; two `flushImmMemtablesToL0` runs then both read
ImmMemtable 0, both write an SST of it, and both move. -/
def doubleMoveTrace : List Event :=
  [.write ⟨[1], ⟨[7], false⟩⟩] ++ List.replicate 9 (.walFlusher 0 true none) ++ [.freezeMemtable] ++
    [.write ⟨[2], ⟨[8], false⟩⟩] ++ List.replicate 10 (.walFlusher 0 true none) ++ [.freezeMemtable] ++
    ([0, 1, 0, 1, 0, 1, 0, 1].map fun t => .memFlusher t true none)

/-- Two concurrent `flushImmMemtablesToL0` runs: ImmMemtable 1 leaves the queue with no SST
written from it, so its write is in no L0 SST, and ImmMemtable 0 puts two SSTs into L0. -/
theorem concurrent_l0_flushes_drop_imm_memtable :
    ∃ m, Reachable 1000 (init 1 2) m ∧ m.removed = [0, 1] ∧ m.l0Sources = [0, 0] ∧
      (m.world.state.table 1).get [2] = some ⟨[8], false⟩ ∧ m.l0Get [2] = none :=
  @exists_reachable_of_run 1000 (init 1 2) doubleMoveTrace _ _ (by decide)

end SlateDB
