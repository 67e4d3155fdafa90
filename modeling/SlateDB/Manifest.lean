import SlateDB.Go

/-! # Publishing the core state through the manifest

`loadManifest`, `writeManifest` and `writeManifestSafely` of the memtable flusher, run against a
manifest store that other writers publish to through the same conditional write. The stored
manifest and `RefreshDBState` are absent and follow the spec. -/
namespace SlateDB

/-- Modelled from the spec: the durable part of the core state that a manifest generation
records. Sorted runs are named by their ids. -/
structure CoreSnapshot where
  l0 : List Handle
  l0LastCompacted : Option ID
  compacted : List ℕ
  lastCompactedWalSSTID : ℕ
  deriving DecidableEq

/-- Modelled from the spec: `RefreshDBState`, by the part of the spec's reconciliation rule
that the code's tests agree with: the compacted runs and `l0_last_compacted` become the
snapshot's. -/
structure Reconcile where
  refresh : CoreSnapshot → CoreSnapshot → CoreSnapshot
  compacted_eq : ∀ core snapshot, (refresh core snapshot).compacted = snapshot.compacted
  l0LastCompacted_eq : ∀ core snapshot,
    (refresh core snapshot).l0LastCompacted = snapshot.l0LastCompacted

/-- The manifest's generations, the flusher's handle on them, and the local core state. -/
structure ManifestWorld where
  /-- Generation `i + 1` is `generations[i]`; the newest is last. -/
  generations : List CoreSnapshot
  /-- The index of the generation the flusher's `FenceableManifest` last read or wrote. -/
  stored : ℕ
  core : CoreSnapshot
  /-- The indices of the generations the flusher wrote. -/
  published : List ℕ
  deriving DecidableEq

namespace ManifestWorld

variable (R : Reconcile)

/-- `loadManifest()`: `Refresh` reads the newest generation and `RefreshDBState` reconciles it
into the core state; the read may fail. -/
def loadManifest (w : ManifestWorld) (ok : Bool) : Except Err ManifestWorld :=
  match ok, w.generations.getLast? with
  | true, some snapshot =>
    pure { w with stored := w.generations.length - 1, core := R.refresh w.core snapshot }
  | _, _ => throw .objectStore

/-- `writeManifest()`: `UpdateDBState` of the core state as the successor of the stored
generation, refused with `ErrAlreadyExists` when that generation exists. Otherwise the write
succeeds when `ok`, and a write that fails may still have `landed`. -/
def writeManifest (w : ManifestWorld) (ok landed : Bool) : ManifestWorld × Except Err Unit :=
  if w.stored + 1 < w.generations.length then (w, throw .alreadyExists)
  else
    let written := { w with
      generations := w.generations ++ [w.core]
      published := w.published ++ [w.stored + 1] }
    if ok then ({ written with stored := w.stored + 1 }, pure ())
    else if landed then (written, throw .objectStore)
    else (w, throw .objectStore)

end ManifestWorld

/-- Where the memtable flusher's task stands in `writeManifestSafely`. -/
inductive ManifestPc
  /-- Not in `writeManifestSafely`: its next step is a periodic `loadManifest`, a
  `MoveImmMemtableToL0`, or a new `writeManifestSafely`. -/
  | idle
  /-- At the `loadManifest` that begins each turn of the loop. -/
  | load
  /-- At `writeManifest`. -/
  | write
  deriving DecidableEq

/-- The manifest world and the place of the memtable flusher's task. -/
structure ManifestMachine where
  world : ManifestWorld
  pc : ManifestPc
  deriving DecidableEq

/-- What can happen next. -/
inductive ManifestEvent
  /-- The task's periodic `loadManifest`, which succeeds when `ok`. -/
  | tick (ok : Bool)
  /-- `MoveImmMemtableToL0` of an SST `h` of a memtable whose last WAL id is `walID`. -/
  | move (h : Handle) (walID : ℕ)
  /-- The task enters `writeManifestSafely`. -/
  | start
  /-- The next step of `writeManifestSafely`; a write that fails may have `landed`. -/
  | step (ok landed : Bool)
  /-- Another writer publishes the successor of the newest generation. -/
  | publish (snapshot : CoreSnapshot)
  deriving DecidableEq

namespace ManifestMachine

variable (R : Reconcile)

/-- One event, when it can happen. -/
def step (m : ManifestMachine) : ManifestEvent → Option ManifestMachine
  | .tick ok =>
    if m.pc = .idle then
      some { m with world := match m.world.loadManifest R ok with | .ok w => w | .error _ => m.world }
    else none
  | .move h walID =>
    if m.pc = .idle then
      some { m with world := { m.world with core := { m.world.core with
        l0 := h :: m.world.core.l0
        lastCompactedWalSSTID := walID } } }
    else none
  | .start => if m.pc = .idle then some { m with pc := .load } else none
  | .step ok landed =>
    match m.pc with
    | .idle => none
    | .load =>
      match m.world.loadManifest R ok with
      | .ok w => some ⟨w, .write⟩
      | .error _ => some { m with pc := .idle }
    | .write =>
      let r := m.world.writeManifest ok landed
      some ⟨r.1, match r.2 with
        | .error .alreadyExists => .load
        | _ => .idle⟩
  | .publish snapshot =>
    some { m with world := { m.world with generations := m.world.generations ++ [snapshot] } }

/-- The machine at open: the manifest holds one generation, which the core state is. -/
def init (g : CoreSnapshot) : ManifestMachine := ⟨⟨[g], 0, g, []⟩, .idle⟩

/-- The machines reachable from `start` by any interleaving of events. -/
inductive Reachable (start : ManifestMachine) : ManifestMachine → Prop
  | init : Reachable start start
  | step {m m' : ManifestMachine} (ev : ManifestEvent) :
      Reachable start m → step R m ev = some m' → Reachable start m'

end ManifestMachine

/-- Generation `i` was written over generation `i - 1` with that generation's compacted runs
and `l0_last_compacted`. -/
def CarriesForeign (generations : List CoreSnapshot) (i : ℕ) : Prop :=
  0 < i ∧ ∃ prev cur, generations[i - 1]? = some prev ∧ generations[i]? = some cur ∧
    cur.compacted = prev.compacted ∧ cur.l0LastCompacted = prev.l0LastCompacted

lemma CarriesForeign.append {generations : List CoreSnapshot} {i : ℕ}
    (h : CarriesForeign generations i) (l : List CoreSnapshot) :
    CarriesForeign (generations ++ l) i := by
  obtain ⟨hi, prev, cur, h₁, h₂, h₃, h₄⟩ := h
  have hlt : i < generations.length := (List.getElem?_eq_some_iff.mp h₂).1
  exact ⟨hi, prev, cur, by rwa [List.getElem?_append_left (by omega)],
    by rwa [List.getElem?_append_left hlt], h₃, h₄⟩

/-- What the flusher's handle and the local core state keep: the stored generation exists and
the core state has its compacted runs and `l0_last_compacted`; every generation the flusher
wrote carries those of the one before. -/
structure ManifestInv (w : ManifestWorld) : Prop where
  stored : w.stored < w.generations.length
  synced : ∃ g, w.generations[w.stored]? = some g ∧ w.core.compacted = g.compacted ∧
    w.core.l0LastCompacted = g.l0LastCompacted
  published : ∀ i ∈ w.published, CarriesForeign w.generations i

namespace ManifestInv

variable {R : Reconcile} {w w' : ManifestWorld}

/-- Another writer's generation leaves the flusher's view alone. -/
lemma append (hi : ManifestInv w) (l : List CoreSnapshot) :
    ManifestInv { w with generations := w.generations ++ l } where
  stored := by simp only [List.length_append]; have := hi.stored; omega
  synced := by
    obtain ⟨g, hg, h₁, h₂⟩ := hi.synced
    exact ⟨g, by rwa [List.getElem?_append_left hi.stored], h₁, h₂⟩
  published := fun i hi' => (hi.published i hi').append l

/-- A refresh makes the newest generation the stored one, with its compacted runs. -/
lemma loadManifest {ok : Bool} (hi : ManifestInv w) (h : w.loadManifest R ok = .ok w') :
    ManifestInv w' := by
  unfold ManifestWorld.loadManifest at h
  split at h
  · rename_i snapshot hlast
    cases h
    have hlen : 0 < w.generations.length :=
      List.length_pos.mpr fun he => by simp [he] at hlast
    refine ⟨by simp only; omega, ⟨snapshot, ?_, R.compacted_eq _ _, R.l0LastCompacted_eq _ _⟩,
      hi.published⟩
    rw [← List.getLast?_eq_getElem?]; exact hlast
  · cases h

/-- The generation a write adds is the successor of the stored one, with its compacted runs. -/
lemma carriesForeign_written (hi : ManifestInv w) (hnew : ¬w.stored + 1 < w.generations.length) :
    CarriesForeign (w.generations ++ [w.core]) (w.stored + 1) := by
  obtain ⟨g, hg, h₁, h₂⟩ := hi.synced
  have hlen : w.stored + 1 = w.generations.length := by have := hi.stored; omega
  refine ⟨Nat.succ_pos _, g, w.core, ?_, ?_, h₁, h₂⟩
  · rwa [Nat.add_sub_cancel, List.getElem?_append_left hi.stored]
  · rw [hlen]; exact List.getElem?_concat_length _ _

/-- `writeManifest`, whether it succeeds, is refused, or fails before or after its write
lands, keeps the invariant. -/
lemma writeManifest (hi : ManifestInv w) (ok landed : Bool) :
    ManifestInv (w.writeManifest ok landed).1 := by
  unfold ManifestWorld.writeManifest
  split_ifs with hnew hok hlanded
  · exact hi
  · have hw := hi.carriesForeign_written hnew
    refine ⟨by simp only [List.length_append, List.length_singleton]; have := hi.stored; omega,
      ⟨w.core, ?_, rfl, rfl⟩, ?_⟩
    · have hlen : w.stored + 1 = w.generations.length := by have := hi.stored; omega
      simp only; rw [hlen]; exact List.getElem?_concat_length _ _
    · intro i hmem
      rcases List.mem_append.mp hmem with hmem | hmem
      · exact (hi.published i hmem).append _
      · exact List.mem_singleton.mp hmem ▸ hw
  · have hw := hi.carriesForeign_written hnew
    refine ⟨(hi.append [w.core]).stored, (hi.append [w.core]).synced, fun i hmem => ?_⟩
    rcases List.mem_append.mp hmem with hmem | hmem
    · exact (hi.published i hmem).append _
    · exact List.mem_singleton.mp hmem ▸ hw
  · exact hi

end ManifestInv

namespace ManifestMachine

variable {R : Reconcile} {m m' : ManifestMachine}

lemma manifestInv_step {ev : ManifestEvent} (hi : ManifestInv m.world) (hs : step R m ev = some m') :
    ManifestInv m'.world := by
  cases ev with
  | tick ok =>
    simp only [step, Option.ite_none_right_eq_some, Option.some.injEq] at hs
    obtain ⟨-, rfl⟩ := hs
    split
    · exact hi.loadManifest ‹_›
    · exact hi
  | move h walID =>
    simp only [step, Option.ite_none_right_eq_some, Option.some.injEq] at hs
    obtain ⟨-, rfl⟩ := hs
    exact ⟨hi.stored, hi.synced, hi.published⟩
  | start =>
    simp only [step, Option.ite_none_right_eq_some, Option.some.injEq] at hs
    obtain ⟨-, rfl⟩ := hs
    exact hi
  | step ok landed =>
    simp only [step] at hs
    split at hs
    · cases hs
    · split at hs <;> cases hs
      · exact hi.loadManifest ‹_›
      · exact hi
    · cases hs
      exact hi.writeManifest ok landed
  | publish snapshot =>
    cases hs
    exact hi.append _

lemma manifestInv_of_reachable {g : CoreSnapshot} (h : Reachable R (init g) m) : ManifestInv m.world := by
  induction h with
  | init => exact ⟨by simp [init], ⟨g, rfl, rfl, rfl⟩, by simp [init]⟩
  | step ev _ hs ih => exact manifestInv_step ih hs

end ManifestMachine

/-- Every generation the memtable flusher writes carries the compacted runs and
`l0_last_compacted` of the generation before it: no foreign update of them is lost. -/
theorem flusher_publishes_foreign_updates (R : Reconcile) (g : CoreSnapshot)
    {m : ManifestMachine} (h : ManifestMachine.Reachable R (ManifestMachine.init g) m) :
    ∀ i ∈ m.world.published, 0 < i ∧ ∃ prev cur, m.world.generations[i - 1]? = some prev ∧
      m.world.generations[i]? = some cur ∧ cur.compacted = prev.compacted ∧
        cur.l0LastCompacted = prev.l0LastCompacted :=
  (ManifestMachine.manifestInv_of_reachable h).published

/-- Modelled from the spec: its literal reconciliation rule, under which every durable field
becomes the snapshot's. -/
def specReconcile : Reconcile := ⟨fun _ snapshot => snapshot, fun _ _ => rfl, fun _ _ => rfl⟩

/-- A compaction lands between the flusher's refresh and its write: the write is refused, and
the retry writes generation 3 over the compaction's generation 2. -/
theorem flusher_publishes_foreign_updates_after_conflict :
    ∃ m, ManifestMachine.Reachable specReconcile (ManifestMachine.init ⟨[], none, [], 0⟩) m ∧
      m.world.published = [2] ∧ m.world.generations.length = 3 ∧
        CarriesForeign m.world.generations 2 := by
  obtain ⟨m, hm, hp, hlen⟩ : ∃ m, ManifestMachine.Reachable specReconcile
      (ManifestMachine.init ⟨[], none, [], 0⟩) m ∧ m.world.published = [2] ∧
        m.world.generations.length = 3 :=
    ⟨_, .step (.step true false) (.step (.step true false) (.step (.step true false)
      (.step (.publish ⟨[], none, [1], 0⟩) (.step (.step true false) (.step .start .init rfl)
        rfl) rfl) rfl) rfl) rfl, rfl, rfl⟩
  exact ⟨m, hm, hp, hlen, flusher_publishes_foreign_updates specReconcile _ hm 2 (by simp [hp])⟩


end SlateDB
