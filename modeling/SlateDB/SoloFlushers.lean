import SlateDB.FlushMachine
import SlateDB.MemtableFlush

/-! # What one flusher of a kind keeps

With one WAL flusher, or one memtable flusher, the queues are left in order, each ImmWAL replayed
once and each ImmMemtable moved once, under any interleaving. Left to run alone with every upload
taken, each flusher performs its sequential loop of `SlateDB.Flush` or `SlateDB.MemtableFlush`. -/
namespace SlateDB

open Machine

section WalSide

/-- The id of the ImmWAL that the WAL flusher at `pc` has popped and not yet replayed. -/
def WalFlushPc.replaying : WalFlushPc → List ℕ
  | .memtable immWal | .replay immWal _ _ => [immWal.id]
  | _ => []

lemma WalFlushPc.replaying_length_le (pc : WalFlushPc) : pc.replaying.length ≤ 1 := by
  cases pc <;> exact Nat.le_of_ble_eq_true rfl

/-- What the WAL flusher at `pc` relies on: the ImmWAL it read is still the head of the queue,
and once uploaded it is in the bucket. -/
def WalFlushPc.Holds (m : Machine) : WalFlushPc → Prop
  | .upload immWal => m.world.state.immWALs.head? = some immWal
  | .pop immWal => m.world.state.immWALs.head? = some immWal ∧ newIDWal immWal.id ∈ m.uploaded
  | _ => True

/-- The invariant of a machine whose one WAL flusher is at `pc`. -/
structure SoloWalInv (m : Machine) (pc : WalFlushPc) : Prop where
  /-- The ImmWALs frozen so far are the popped ones, in order, then the queue; each popped one
  is in the bucket. -/
  queue : ∃ done, m.frozen = done ++ m.world.state.immWALs ∧ m.popped = done.map (·.id) ∧
    ∀ W ∈ done, newIDWal W.id ∈ m.uploaded
  ascending : (m.frozen.map (·.id)).Sorted (· < ·)
  fresh : ∀ W ∈ m.frozen, W.id < m.world.state.nextWalSSTID
  replays : m.popped = m.replays ++ pc.replaying
  holds : pc.Holds m

/-- A step that leaves the WAL side alone: the queue, the next WAL id and the WAL records are
kept, and the bucket only grows. -/
structure WalFrame (m m' : Machine) : Prop where
  frozen : m'.frozen = m.frozen
  popped : m'.popped = m.popped
  replays : m'.replays = m.replays
  immWALs : m'.world.state.immWALs = m.world.state.immWALs
  nextWalSSTID : m'.world.state.nextWalSSTID = m.world.state.nextWalSSTID
  uploaded : m.uploaded ⊆ m'.uploaded

variable {limit : ℕ} {ok : Bool} {fail : Option (ℕ × Err)} {m m' : Machine} {pc pc' : WalFlushPc}

lemma WalFrame.refl (m : Machine) : WalFrame m m := ⟨rfl, rfl, rfl, rfl, rfl, fun _ h => h⟩

lemma walFrame_mapState {f : DBState → DBState} (h₁ : (f m.world.state).immWALs = m.world.state.immWALs)
    (h₂ : (f m.world.state).nextWalSSTID = m.world.state.nextWalSSTID) :
    WalFrame m (m.mapState f) :=
  ⟨rfl, rfl, rfl, h₁, h₂, fun _ h => h⟩

lemma mem_uploaded_upload (o : ID × SSTContent) :
    o.1 ∈ ({ m with world := { m.world with objects := m.world.objects ++ [o] } } : Machine).uploaded :=
  List.mem_map_of_mem _ (List.mem_append_right _ (List.mem_singleton_self _))

lemma uploaded_subset_upload (o : ID × SSTContent) :
    m.uploaded ⊆ ({ m with world := { m.world with objects := m.world.objects ++ [o] } } : Machine).uploaded :=
  fun _ h => by simp only [uploaded, List.map_append] at h ⊢; exact List.mem_append_left _ h

/-- An upload only adds to the bucket. -/
lemma walFrame_upload (o : ID × SSTContent) :
    WalFrame m { m with world := { m.world with objects := m.world.objects ++ [o] } } :=
  ⟨rfl, rfl, rfl, rfl, rfl, uploaded_subset_upload o⟩

lemma WalFlushPc.Holds.frame (h : pc.Holds m) (hf : WalFrame m m') : pc.Holds m' := by
  cases pc with
  | upload W => show m'.world.state.immWALs.head? = _; rw [hf.immWALs]; exact h
  | pop W => exact ⟨hf.immWALs.symm ▸ h.1, hf.uploaded h.2⟩
  | _ => trivial

lemma SoloWalInv.frame (hi : SoloWalInv m pc) (hf : WalFrame m m')
    (hr : pc'.replaying = pc.replaying) (hh : pc'.Holds m') : SoloWalInv m' pc' where
  queue := by
    obtain ⟨done, h₁, h₂, h₃⟩ := hi.queue
    exact ⟨done, by rw [hf.frozen, hf.immWALs, h₁], by rw [hf.popped, h₂],
      fun W hW => hf.uploaded (h₃ W hW)⟩
  ascending := hf.frozen ▸ hi.ascending
  fresh := by rw [hf.frozen, hf.nextWalSSTID]; exact hi.fresh
  replays := by rw [hf.popped, hf.replays, hr]; exact hi.replays
  holds := hh

/-- `FlushWAL`'s freeze: a non-empty WAL joins the tail of the queue under the next id. -/
lemma SoloWalInv.freezeWAL (hi : SoloWalInv m .idle) :
    SoloWalInv (walFlusherStep limit ok fail m .idle).2 .loop := by
  obtain ⟨done, h₁, h₂, h₃⟩ := hi.queue
  by_cases he : m.world.state.wal.isEmpty
  · refine hi.frame ⟨?_, rfl, rfl, ?_, ?_, fun _ h => h⟩ rfl trivial <;>
      simp [walFlusherStep, mapState, he]
  · have hfresh : ∀ W ∈ m.frozen, W.id < m.world.state.nextWalSSTID := hi.fresh
    refine ⟨⟨done, ?_, h₂, h₃⟩, ?_, ?_, hi.replays, trivial⟩ <;>
      simp only [walFlusherStep, mapState, DBState.freezeWAL_immWALs,
        DBState.freezeWAL_nextWalSSTID, he, Bool.false_eq_true, if_false]
    · rw [h₁, List.append_assoc]
    · rw [List.map_append, List.map_singleton, List.Sorted, List.pairwise_append]
      refine ⟨hi.ascending, List.pairwise_singleton _ _, fun a ha b hb => ?_⟩
      obtain ⟨W, hW, rfl⟩ := List.mem_map.mp ha
      exact List.mem_singleton.mp hb ▸ hfresh W hW
    · intro W hW
      rcases List.mem_append.mp hW with hW | hW
      · exact Nat.lt_succ_of_lt (hfresh W hW)
      · obtain rfl := List.mem_singleton.mp hW
        exact Nat.lt_succ_self _

/-- `PopImmWAL`: the head it removes is the ImmWAL the flusher uploaded. -/
lemma SoloWalInv.popImmWAL {W : ImmutableWAL} (hi : SoloWalInv m (.pop W)) :
    SoloWalInv (walFlusherStep limit ok fail m (.pop W)).2 (.memtable W) := by
  obtain ⟨done, h₁, h₂, h₃⟩ := hi.queue
  obtain ⟨hhead, hup⟩ := hi.holds
  obtain ⟨rest, hq⟩ := List.head?_eq_some_iff.mp hhead
  refine ⟨⟨done ++ [W], ?_, ?_, ?_⟩, hi.ascending, hi.fresh, ?_, trivial⟩ <;>
    simp only [walFlusherStep, mapState, DBState.popImmWAL_immWALs, hq, List.head?_cons,
      List.tail_cons, Option.map_some', Option.toList_some]
  · simp [h₁, hq]
  · simp [h₂]
  · intro W' hW'
    rcases List.mem_append.mp hW' with hW' | hW'
    · exact h₃ W' hW'
    · exact List.mem_singleton.mp hW' ▸ hup
  · simp [hi.replays, WalFlushPc.replaying]

/-- The end of the replay: the popped ImmWAL joins the replays. -/
lemma SoloWalInv.setLastWalID {W : ImmutableWAL} {seq : ℕ} (hi : SoloWalInv m (.replay W seq [])) :
    SoloWalInv (walFlusherStep limit ok fail m (.replay W seq [])).2 (.freeze W) := by
  obtain ⟨done, h₁, h₂, h₃⟩ := hi.queue
  refine ⟨⟨done, ?_, h₂, h₃⟩, hi.ascending, ?_, ?_, trivial⟩ <;>
    simp only [walFlusherStep, mapState, DBState.setLastWalID_immWALs,
      DBState.setLastWalID_nextWalSSTID]
  · exact h₁
  · exact hi.fresh
  · simpa [WalFlushPc.replaying] using hi.replays

/-- One step of the WAL flusher keeps the invariant. -/
lemma SoloWalInv.walFlusherStep (hi : SoloWalInv m pc) :
    SoloWalInv (walFlusherStep limit ok fail m pc).2 (walFlusherStep limit ok fail m pc).1 := by
  cases pc with
  | idle => exact hi.freezeWAL
  | loop =>
    simp only [Machine.walFlusherStep]
    split
    · exact hi.frame (.refl m) rfl trivial
    · rename_i W hW
      exact hi.frame (.refl m) rfl hW
  | upload W =>
    simp only [Machine.walFlusherStep]
    split
    · exact hi.frame (.refl m) rfl trivial
    · rename_i hd w hf
      obtain ⟨-, rfl⟩ := flushImmWAL_eq_ok hf
      exact hi.frame (walFrame_upload _) rfl ⟨hi.holds, mem_uploaded_upload _⟩
  | pop W => exact hi.popImmWAL
  | memtable W => exact hi.frame (.refl m) rfl trivial
  | replay W seq rest =>
    cases rest with
    | nil => exact hi.setLastWalID
    | cons e rest =>
      simp only [Machine.walFlusherStep]
      exact hi.frame (walFrame_mapState rfl rfl) rfl trivial
  | freeze W =>
    simp only [Machine.walFlusherStep]
    exact hi.frame (walFrame_mapState (by simp) (by simp)) rfl trivial
  | notify W => exact hi.frame ⟨rfl, rfl, rfl, rfl, rfl, fun _ h => h⟩ rfl trivial

/-- A memtable flusher's step leaves the WAL side alone. -/
lemma walFrame_memFlusherStep (mpc : MemFlushPc) (l : List MemFlushPc) :
    WalFrame m { (memFlusherStep ok fail m mpc).2 with memFlushers := l } := by
  cases mpc with
  | loop => simp only [memFlusherStep]; split <;> exact ⟨rfl, rfl, rfl, rfl, rfl, fun _ h => h⟩
  | write imm =>
    simp only [memFlusherStep]
    split
    · exact ⟨rfl, rfl, rfl, rfl, rfl, fun _ h => h⟩
    · rename_i hd w hf
      obtain ⟨-, sst, rfl⟩ := flushImmTable_eq_ok hf
      exact ⟨rfl, rfl, rfl, rfl, rfl, uploaded_subset_upload _⟩
  | _ => exact ⟨rfl, rfl, rfl, rfl, rfl, fun _ h => h⟩

lemma SoloWalInv.setFlushers (hi : SoloWalInv m pc) (l : List WalFlushPc) :
    SoloWalInv { m with walFlushers := l } pc :=
  ⟨hi.queue, hi.ascending, hi.fresh, hi.replays, by cases pc <;> exact hi.holds⟩

lemma SoloWalInv.step {ev : Event} (hw : m.walFlushers = [pc]) (hi : SoloWalInv m pc)
    (hs : step limit m ev = some m') : ∃ pc', m'.walFlushers = [pc'] ∧ SoloWalInv m' pc' := by
  cases ev with
  | write e =>
    cases hs
    exact ⟨pc, hw, hi.frame (walFrame_mapState rfl rfl) rfl (hi.holds.frame (walFrame_mapState rfl rfl))⟩
  | freezeMemtable =>
    cases hs
    exact ⟨pc, hw, hi.frame (walFrame_mapState rfl rfl) rfl (hi.holds.frame (walFrame_mapState rfl rfl))⟩
  | walFlusher t ok fail =>
    simp only [Machine.step, hw, Option.map_eq_some'] at hs
    obtain ⟨pc₀, ht, rfl⟩ := hs
    obtain ⟨rfl, rfl⟩ : t = 0 ∧ pc₀ = pc := by
      cases t with
      | zero => exact ⟨rfl, (Option.some.inj ht).symm⟩
      | succ t => simp at ht
    exact ⟨_, rfl, hi.walFlusherStep.setFlushers _⟩
  | memFlusher t ok fail =>
    simp only [Machine.step, Option.map_eq_some'] at hs
    obtain ⟨mpc, -, rfl⟩ := hs
    exact ⟨pc, (memFlusherStep_walFlushers ok fail m mpc).trans hw,
      hi.frame (walFrame_memFlusherStep mpc _) rfl (hi.holds.frame (walFrame_memFlusherStep mpc _))⟩

lemma soloWalInv_of_reachable {k : ℕ} (h : Reachable limit (init 1 k) m) :
    ∃ pc, m.walFlushers = [pc] ∧ SoloWalInv m pc := by
  induction h with
  | init => exact ⟨.idle, rfl, ⟨[], rfl, rfl, by simp⟩, List.sorted_nil, by simp [init], rfl, trivial⟩
  | step ev _ hs ih =>
    obtain ⟨pc, hw, hi⟩ := ih
    exact hi.step hw hs

/-- With one WAL flusher, ImmWALs leave the queue in freeze order once their SSTs are in the
bucket, and are replayed once each, in ascending id order. -/
theorem solo_walFlusher_keeps_imm_wals {k : ℕ} (h : Reachable limit (init 1 k) m) :
    (∀ W ∈ m.frozen, W ∈ m.world.state.immWALs ∨ newIDWal W.id ∈ m.uploaded) ∧
    m.popped <+: m.frozen.map (·.id) ∧ (∀ id ∈ m.popped, newIDWal id ∈ m.uploaded) ∧
    (m.frozen.map (·.id)).Sorted (· < ·) ∧
    m.replays <+: m.popped ∧ m.popped.length ≤ m.replays.length + 1 := by
  obtain ⟨pc, -, hi⟩ := soloWalInv_of_reachable h
  obtain ⟨done, h₁, h₂, h₃⟩ := hi.queue
  refine ⟨fun W hW => ?_, ?_, ?_, hi.ascending, ?_, ?_⟩
  · rcases List.mem_append.mp (h₁ ▸ hW) with hW | hW
    exacts [.inr (h₃ W hW), .inl hW]
  · rw [h₂, h₁, List.map_append]; exact List.prefix_append _ _
  · intro id hid
    obtain ⟨W, hW, rfl⟩ := List.mem_map.mp (h₂ ▸ hid)
    exact h₃ W hW
  · rw [hi.replays]; exact List.prefix_append _ _
  · rw [hi.replays, List.length_append]
    exact Nat.add_le_add_left pc.replaying_length_le _

/-- Two writes, each flushed in turn by the one WAL flusher. -/
def twoFlushesTrace : List Event :=
  [.write ⟨[1], ⟨[7], false⟩⟩] ++ List.replicate 9 (.walFlusher 0 true none) ++
    [.write ⟨[2], ⟨[8], false⟩⟩] ++ List.replicate 10 (.walFlusher 0 true none)

theorem solo_walFlusher_keeps_imm_wals_two_flushes :
    ∃ m, Reachable 1000 (init 1 0) m ∧ m.replays = [1, 2] ∧ m.replays <+: m.popped := by
  obtain ⟨m, hm, hr⟩ := @exists_reachable_of_run 1000 (init 1 0) twoFlushesTrace
    (fun m => m.replays = [1, 2]) _ (by decide)
  exact ⟨m, hm, hr, (solo_walFlusher_keeps_imm_wals hm).2.2.2.2.1⟩

end WalSide

section Refinement

variable {limit : ℕ} {m : Machine}

lemma Machine.Reachable.trans {a b c : Machine} (hab : Reachable limit a b) (hbc : Reachable limit b c) :
    Reachable limit a c := by
  induction hbc with
  | init => exact hab
  | step ev _ hs ih => exact .step ev ih hs

/-- `m'` is where the one WAL flusher of `m` gets to by steps of its own, with every upload taken
and nothing else happening. -/
def SoloRun (limit : ℕ) (m m' : Machine) : Prop :=
  ∃ n, run limit m (List.replicate n (.walFlusher 0 true none)) = some m'

lemma SoloRun.trans {a b c : Machine} (hab : SoloRun limit a b) (hbc : SoloRun limit b c) :
    SoloRun limit a c :=
  let ⟨n₁, h₁⟩ := hab
  let ⟨n₂, h₂⟩ := hbc
  ⟨n₁ + n₂, by rw [List.replicate_add, run_append, h₁]; exact h₂⟩

lemma SoloRun.reachable {m' : Machine} (h : SoloRun limit m m') : Reachable limit m m' :=
  let ⟨_, hr⟩ := h
  reachable_of_run .init hr

/-- A step of the one WAL flusher of a machine, when its upload succeeds. -/
lemma soloRun_step {pc : WalFlushPc} (hw : m.walFlushers = [pc]) :
    SoloRun limit m { (walFlusherStep limit true none m pc).2 with
      walFlushers := [(walFlusherStep limit true none m pc).1] } :=
  ⟨1, by simp [run, Machine.step, hw]⟩

/-- The replay puts the ImmWAL's entries into memtable `seq`, one step each. -/
lemma soloRun_replay {W : ImmutableWAL} {seq : ℕ} (es : List RowEntry) (m : Machine)
    (hw : m.walFlushers = [.replay W seq es]) :
    ∃ m', SoloRun limit m m' ∧ m'.walFlushers = [.replay W seq []] ∧
      m'.world = { m.world with state := es.foldl (·.putMemtable seq ·) m.world.state } := by
  induction es generalizing m with
  | nil => exact ⟨m, ⟨0, rfl⟩, hw, rfl⟩
  | cons e es ih =>
    obtain ⟨m', h', hw', hworld⟩ :=
      ih { m.mapState (·.putMemtable seq e) with walFlushers := [.replay W seq es] } rfl
    exact ⟨m', (soloRun_step hw).trans h', hw', hworld⟩

/-- An upload that the bucket takes always succeeds. -/
lemma flushImmWAL_uploadEnv_ok (w : FlushWorld) (W : ImmutableWAL) :
    ∃ hd, flushImmWAL (uploadEnv limit true) w W = .ok (hd, { w with objects :=
      w.objects ++ [(newIDWal W.id, W.table.entries.map addValueArgs)] }) := by
  simp only [flushImmWAL, uploadEnv, stepEnv, flushImmTable_iterRun_none, writeSST, if_true, except_pure]
  exact ⟨_, rfl⟩

/-- With every upload taken, `flushImmWALs` drains the ImmWAL queue. -/
lemma flushImmWALs_uploadEnv_immWALs (w : FlushWorld) :
    (flushImmWALs (uploadEnv limit true) w).1.state.immWALs = [] := by
  obtain ⟨q, hq⟩ : ∃ q, w.state.immWALs = q := ⟨_, rfl⟩
  induction q generalizing w with
  | nil => rw [flushImmWALs_of_none (by simp [DBState.oldestImmWAL, hq])]; exact hq
  | cons W q ih =>
    obtain ⟨hd, hf⟩ := @flushImmWAL_uploadEnv_ok limit w W
    obtain ⟨w₁, hrun, h1q, -, -⟩ := flushImmWALs_step (by simp [DBState.oldestImmWAL, hq]) hf
    rw [hrun]
    exact ih w₁ (by rw [h1q, hq]; rfl)

/-- The WAL flusher's run from the head of `flushImmWALs`'s loop to idle, step by step. -/
lemma soloRun_flushImmWALs (m : Machine) (hw : m.walFlushers = [.loop]) :
    ∃ m', SoloRun limit m m' ∧ m'.walFlushers = [.idle] ∧
      m'.world = (flushImmWALs (uploadEnv limit true) m.world).1 := by
  obtain ⟨q, hq⟩ : ∃ q, m.world.state.immWALs = q := ⟨_, rfl⟩
  induction q generalizing m with
  | nil =>
    have hnone : m.world.state.oldestImmWAL = none := by simp [DBState.oldestImmWAL, hq]
    refine ⟨_, soloRun_step hw, by simp [Machine.walFlusherStep, hnone], ?_⟩
    rw [flushImmWALs_of_none hnone]
    simp [Machine.walFlusherStep, hnone]
  | cons W q ih =>
    have hW : m.world.state.oldestImmWAL = some W := by simp [DBState.oldestImmWAL, hq]
    obtain ⟨hd, hf⟩ := @flushImmWAL_uploadEnv_ok limit m.world W
    set w₁ := { m.world with objects :=
      m.world.objects ++ [(newIDWal W.id, W.table.entries.map addValueArgs)] }
    set seq := w₁.state.popImmWAL.memtable.seq
    obtain ⟨m₁, h₁, hw₁, hm₁⟩ : ∃ m₁, SoloRun limit m m₁ ∧ m₁.walFlushers = [.upload W] ∧
        m₁.world = m.world :=
      ⟨_, soloRun_step hw, by simp [Machine.walFlusherStep, hW], by simp [Machine.walFlusherStep, hW]⟩
    obtain ⟨m₂, h₂, hw₂, hm₂⟩ : ∃ m₂, SoloRun limit m₁ m₂ ∧ m₂.walFlushers = [.pop W] ∧
        m₂.world = w₁ :=
      ⟨_, soloRun_step hw₁, by simp [Machine.walFlusherStep, hm₁, hf],
        by simp [Machine.walFlusherStep, hm₁, hf]⟩
    obtain ⟨m₃, h₃, hw₃, hm₃⟩ : ∃ m₃, SoloRun limit m₂ m₃ ∧
        m₃.walFlushers = [.replay W seq W.table.entries] ∧
          m₃.world = { w₁ with state := w₁.state.popImmWAL } :=
      ⟨_, (soloRun_step hw₂).trans (@soloRun_step limit _ (.memtable W) rfl),
        by simp [Machine.walFlusherStep, mapState, hm₂, seq], by simp [Machine.walFlusherStep, mapState, hm₂]⟩
    obtain ⟨m₄, h₄, hw₄, hm₄⟩ := @soloRun_replay limit _ _ _ m₃ hw₃
    obtain ⟨m₅, h₅, hw₅, hm₅⟩ : ∃ m₅, SoloRun limit m₄ m₅ ∧ m₅.walFlushers = [.loop] ∧
        m₅.world = { w₁ with
          state := (flushImmWALToMemtable (uploadEnv limit true) W seq
            w₁.state.popImmWAL).maybeFreezeMemtable limit W.id
          notified := w₁.notified ++ [W.id] } := by
      refine ⟨_, (soloRun_step hw₄).trans
        ((@soloRun_step limit _ (.freeze W) rfl).trans (@soloRun_step limit _ (.notify W) rfl)), rfl, ?_⟩
      simp only [Machine.walFlusherStep, mapState, hm₄, hm₃, flushImmWALToMemtable, uploadEnv, stepEnv,
        replayLoop_eq (iterRun_endsAfter W.table none), KVTable.iterEntries]
    obtain ⟨m', h', hw', hm'⟩ := ih m₅ hw₅ (by rw [hm₅]; simp [flushImmWALToMemtable, hq])
    refine ⟨m', h₁.trans (h₂.trans (h₃.trans (h₄.trans (h₅.trans h')))), hw', ?_⟩
    rw [hm', hm₅, flushImmWALs_of_ok hW hf]
    rfl

end Refinement

section MemSide

/-- What the memtable flusher at `pc` relies on: the ImmMemtable it read is still the head of
the queue, and once written its SST is in the bucket. -/
def MemFlushPc.Holds (m : Machine) : MemFlushPc → Prop
  | .write imm => m.world.state.immMemtables.head? = some imm
  | .move imm h => m.world.state.immMemtables.head? = some imm ∧ h.id ∈ m.uploaded
  | _ => True

/-- The invariant of a machine whose one memtable flusher is at `pc`. -/
structure SoloMemInv (m : Machine) (pc : MemFlushPc) : Prop where
  /-- The memtables removed from the queue, then those in it, in strictly ascending order and
  older than the live one. -/
  ascending : (m.removed ++ m.world.state.immMemtables.map (·.seq)).Sorted (· < ·)
  older : ∀ n ∈ m.removed ++ m.world.state.immMemtables.map (·.seq), n < m.world.state.memtable.seq
  live : m.world.state.memtable.seq < m.world.state.memtables.length
  /-- Each removal put one SST into L0, written from the memtable it removed. -/
  sources : m.l0Sources = m.removed.reverse
  l0 : m.world.state.l0.length = m.l0Sources.length
  written : ∀ h ∈ m.world.state.l0, h.id ∈ m.uploaded
  holds : pc.Holds m

/-- A step that leaves the memtable side alone, but for uploads. -/
structure MemFrame (m m' : Machine) : Prop where
  immMemtables : m'.world.state.immMemtables = m.world.state.immMemtables
  seq : m'.world.state.memtable.seq = m.world.state.memtable.seq
  memtables : m'.world.state.memtables.length = m.world.state.memtables.length
  l0 : m'.world.state.l0 = m.world.state.l0
  removed : m'.removed = m.removed
  l0Sources : m'.l0Sources = m.l0Sources
  uploaded : m.uploaded ⊆ m'.uploaded

variable {limit : ℕ} {ok : Bool} {fail : Option (ℕ × Err)} {m m' : Machine} {pc pc' : MemFlushPc}

lemma MemFrame.refl (m : Machine) : MemFrame m m := ⟨rfl, rfl, rfl, rfl, rfl, rfl, fun _ h => h⟩

lemma MemFlushPc.Holds.frame (h : pc.Holds m) (hf : MemFrame m m') : pc.Holds m' := by
  cases pc with
  | write imm => show m'.world.state.immMemtables.head? = _; rw [hf.immMemtables]; exact h
  | move imm h => exact ⟨hf.immMemtables.symm ▸ h.1, hf.uploaded h.2⟩
  | _ => trivial

lemma SoloMemInv.frame (hi : SoloMemInv m pc) (hf : MemFrame m m') : SoloMemInv m' pc where
  ascending := by rw [hf.removed, hf.immMemtables]; exact hi.ascending
  older := by rw [hf.removed, hf.immMemtables, hf.seq]; exact hi.older
  live := by rw [hf.seq, hf.memtables]; exact hi.live
  sources := by rw [hf.removed, hf.l0Sources]; exact hi.sources
  l0 := by rw [hf.l0, hf.l0Sources]; exact hi.l0
  written := fun h hh => hf.uploaded (hi.written h (hf.l0 ▸ hh))
  holds := hi.holds.frame hf

/-- A freeze queues the live memtable, younger than every other, and makes a new one. -/
lemma SoloMemInv.freezeMemtable (hi : SoloMemInv m pc) (walID : ℕ) :
    SoloMemInv (m.mapState (·.freezeMemtable walID)) pc := by
  refine ⟨?_, ?_, ?_, hi.sources, hi.l0, hi.written, ?_⟩ <;>
    simp only [mapState, DBState.freezeMemtable, List.map_append, List.map_singleton,
      ← List.append_assoc]
  · rw [List.Sorted, List.pairwise_append]
    exact ⟨hi.ascending, List.pairwise_singleton _ _, fun n hn _ h => List.mem_singleton.mp h ▸ hi.older n hn⟩
  · intro n hn
    rcases List.mem_append.mp hn with hn | hn
    · exact (hi.older n hn).trans hi.live
    · exact List.mem_singleton.mp hn ▸ hi.live
  · rw [List.length_append, List.length_singleton]; exact Nat.lt_succ_self _
  · cases pc with
    | write imm =>
      have h : m.world.state.immMemtables.head? = some imm := hi.holds
      simp [MemFlushPc.Holds, h]
    | move imm h' =>
      have h : m.world.state.immMemtables.head? = some imm := hi.holds.1
      exact ⟨by simp [h], hi.holds.2⟩
    | _ => trivial

lemma SoloMemInv.setFlushers (hi : SoloMemInv m pc) (l : List WalFlushPc) (l' : List MemFlushPc) :
    SoloMemInv { m with walFlushers := l, memFlushers := l' } pc :=
  ⟨hi.ascending, hi.older, hi.live, hi.sources, hi.l0, hi.written, by cases pc <;> exact hi.holds⟩

/-- A WAL flusher's step changes the memtable side only by a freeze. -/
lemma SoloMemInv.walFlusherStep (hi : SoloMemInv m pc) (wpc : WalFlushPc) :
    SoloMemInv (walFlusherStep limit ok fail m wpc).2 pc := by
  cases wpc with
  | idle =>
    refine hi.frame ⟨?_, ?_, ?_, ?_, rfl, rfl, fun _ h => h⟩ <;>
      simp [Machine.walFlusherStep, mapState]
  | loop => simp only [Machine.walFlusherStep]; split <;> exact hi
  | upload W =>
    simp only [Machine.walFlusherStep]
    split
    · exact hi
    · rename_i hd w hf
      obtain ⟨-, rfl⟩ := flushImmWAL_eq_ok hf
      exact hi.frame ⟨rfl, rfl, rfl, rfl, rfl, rfl, uploaded_subset_upload _⟩
  | pop W => exact hi.frame ⟨rfl, rfl, rfl, rfl, rfl, rfl, fun _ h => h⟩
  | memtable W => exact hi
  | replay W seq rest =>
    cases rest with
    | nil =>
      refine hi.frame ⟨?_, ?_, ?_, ?_, rfl, rfl, fun _ h => h⟩ <;>
        simp [Machine.walFlusherStep, mapState, DBState.setLastWalID_eq]
    | cons e rest => exact hi.frame ⟨rfl, rfl, by simp [Machine.walFlusherStep, mapState], rfl, rfl,
        rfl, fun _ h => h⟩
  | freeze W =>
    simp only [Machine.walFlusherStep]
    rcases DBState.maybeFreezeMemtable_cases m.world.state W.id limit with h | h <;>
      simp only [mapState, h]
    · exact hi.freezeMemtable W.id
    · exact hi
  | notify W => exact hi.frame ⟨rfl, rfl, rfl, rfl, rfl, rfl, fun _ h => h⟩

/-- `MoveImmMemtableToL0`: the head it removes is the ImmMemtable the flusher wrote. -/
lemma SoloMemInv.moveImmMemtableToL0 {imm : ImmutableMemtable} {h : Handle}
    (hi : SoloMemInv m (.move imm h)) :
    SoloMemInv (memFlusherStep ok fail m (.move imm h)).2 .manifest := by
  obtain ⟨hhead, hup⟩ := hi.holds
  obtain ⟨rest, hq⟩ := List.head?_eq_some_iff.mp hhead
  have hlist : m.removed ++ imm.seq :: rest.map (·.seq) =
      m.removed ++ m.world.state.immMemtables.map (·.seq) := by simp [hq]
  refine ⟨?_, ?_, hi.live, ?_, ?_, ?_, trivial⟩ <;>
    simp only [memFlusherStep, mapState, DBState.moveImmMemtableToL0, hq, List.head?_cons,
      List.tail_cons, Option.map_some', Option.toList_some, List.append_assoc, List.singleton_append]
  · exact hlist ▸ hi.ascending
  · exact hlist ▸ hi.older
  · simp [hi.sources]
  · simp [hi.l0]
  · intro h' hh'
    rcases List.mem_cons.mp hh' with rfl | hh'
    exacts [hup, hi.written h' hh']

/-- One step of the memtable flusher keeps the invariant. -/
lemma SoloMemInv.memFlusherStep (hi : SoloMemInv m pc) :
    SoloMemInv (memFlusherStep ok fail m pc).2 (memFlusherStep ok fail m pc).1 := by
  cases pc with
  | idle => exact ⟨hi.ascending, hi.older, hi.live, hi.sources, hi.l0, hi.written, trivial⟩
  | loop =>
    simp only [Machine.memFlusherStep]
    split
    · exact ⟨hi.ascending, hi.older, hi.live, hi.sources, hi.l0, hi.written, trivial⟩
    · rename_i imm himm
      exact ⟨hi.ascending, hi.older, hi.live, hi.sources, hi.l0, hi.written, himm⟩
  | write imm =>
    simp only [Machine.memFlusherStep]
    split
    · exact ⟨hi.ascending, hi.older, hi.live, hi.sources, hi.l0, hi.written, trivial⟩
    · rename_i hd w hf
      obtain ⟨hid, sst, rfl⟩ := flushImmTable_eq_ok hf
      have hf : MemFrame m { m with world := { m.world with
          objects := m.world.objects ++ [(newIDCompacted (toString m.nextULID), sst)] } } :=
        ⟨rfl, rfl, rfl, rfl, rfl, rfl, uploaded_subset_upload _⟩
      have hi' := hi.frame hf
      exact ⟨hi'.ascending, hi'.older, hi'.live, hi'.sources, hi'.l0, hi'.written,
        hi.holds, hid ▸ mem_uploaded_upload _⟩
  | move imm h => exact hi.moveImmMemtableToL0
  | manifest =>
    exact ⟨hi.ascending, hi.older, hi.live, hi.sources, hi.l0, hi.written, by cases ok <;> trivial⟩

lemma SoloMemInv.step {ev : Event} (hw : m.memFlushers = [pc]) (hi : SoloMemInv m pc)
    (hs : step limit m ev = some m') : ∃ pc', m'.memFlushers = [pc'] ∧ SoloMemInv m' pc' := by
  cases ev with
  | write e =>
    cases hs
    exact ⟨pc, hw, hi.frame ⟨rfl, rfl, rfl, rfl, rfl, rfl, fun _ h => h⟩⟩
  | freezeMemtable =>
    cases hs
    exact ⟨pc, hw, hi.freezeMemtable _⟩
  | walFlusher t ok fail =>
    simp only [Machine.step, Option.map_eq_some'] at hs
    obtain ⟨wpc, -, rfl⟩ := hs
    exact ⟨pc, (walFlusherStep_memFlushers limit ok fail m wpc).trans hw,
      (hi.walFlusherStep wpc).setFlushers _ _⟩
  | memFlusher t ok fail =>
    simp only [Machine.step, hw, Option.map_eq_some'] at hs
    obtain ⟨pc₀, ht, rfl⟩ := hs
    obtain ⟨rfl, rfl⟩ : t = 0 ∧ pc₀ = pc := by
      cases t with
      | zero => exact ⟨rfl, (Option.some.inj ht).symm⟩
      | succ t => simp at ht
    exact ⟨_, rfl, hi.memFlusherStep.setFlushers _ _⟩

lemma soloMemInv_of_reachable {k : ℕ} (h : Reachable limit (init k 1) m) :
    ∃ pc, m.memFlushers = [pc] ∧ SoloMemInv m pc := by
  induction h with
  | init => exact ⟨.idle, rfl, List.sorted_nil, by simp [Machine.init], by simp [Machine.init], rfl, rfl,
      by simp [Machine.init], trivial⟩
  | step ev _ hs ih =>
    obtain ⟨pc, hw, hi⟩ := ih
    exact hi.step hw hs

end MemSide

end SlateDB
