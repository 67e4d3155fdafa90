import SlateDB.SoloFlushers
import SlateDB.ConcurrentFlushers

/-! # The last flush of the WAL flush task

`spawnWALFlushTask` runs `FlushWAL` on each tick and once more when `walFlushNotifierCh`
delivers. Run alone, with every upload taken and no iterator failing, that last `FlushWAL` ends
with the queue empty and every ImmWAL it flushed in the bucket with all of its entries. -/
namespace SlateDB

open Machine

variable {exact : Prop} {limit : ℕ} {m : Machine}

/-- An ImmWAL whose id the bucket has is there with an SST of its own. -/
lemma WorldInv.hasWalSST {W : ImmutableWAL} (hi : WorldInv exact m) (hW : W ∈ m.frozen)
    (hu : newIDWal W.id ∈ m.uploaded) : m.HasWalSST W := by
  obtain ⟨p, hp, hid⟩ := List.mem_map.mp hu
  obtain ⟨W', hW', hpW', -⟩ := hi.wal_object hp (by rw [hid]; rfl)
  have hid' : W'.id = W.id := Strconv.toString_injective (congrArg ID.value (hpW'.1.symm.trans hid))
  exact ⟨p, hp, hi.unique W' hW' W hW hid' ▸ hpW'⟩

/-- With every upload taken and no iterator failing, `flushImmWALs` writes each queued ImmWAL's
SST with all of its entries. -/
lemma flushImmWALs_uploadEnv_objects (w : FlushWorld) :
    (flushImmWALs (uploadEnv limit true) w).1.objects = w.objects ++ w.state.immWALs.map walSST := by
  obtain ⟨q, hq⟩ : ∃ q, w.state.immWALs = q := ⟨_, rfl⟩
  induction q generalizing w with
  | nil => rw [flushImmWALs_of_none (by simp [DBState.oldestImmWAL, hq]), hq, List.map_nil, List.append_nil]
  | cons W q ih =>
    obtain ⟨hd, hf⟩ := @flushImmWAL_uploadEnv_ok limit w W
    obtain ⟨w₁, hrun, h1q, h1o, -⟩ := flushImmWALs_step (by simp [DBState.oldestImmWAL, hq]) hf
    rw [hrun, ih w₁ (by rw [h1q, hq]; rfl), h1o, h1q, hq]
    simp [walSST]

/-- The last `FlushWAL`, run alone without failures, ends with the queue empty and every ImmWAL it
flushed in the bucket with all of its entries. -/
theorem final_flushWAL_makes_writes_durable {k : ℕ} {evs : List Event}
    (h : run limit (init 1 k) evs = some m) (hw : m.walFlushers = [.idle]) :
    let fresh : List ImmutableWAL :=
      if m.world.state.wal.isEmpty then [] else [⟨m.world.state.nextWalSSTID, m.world.state.wal⟩]
    ∃ m', SoloRun limit m m' ∧ m'.walFlushers = [.idle] ∧ m'.world.state.immWALs = [] ∧
      m.frozen ++ fresh <+: m'.frozen ∧
      (∀ W ∈ m.world.state.immWALs ++ fresh, walSST W ∈ m'.world.objects) ∧
      (∀ W ∈ m'.frozen, ∃ p ∈ m'.world.objects, WalSSTOf W p) ∧
      ((∀ ev ∈ evs, ev.iterFail = none) → ∀ W ∈ m'.frozen, walSST W ∈ m'.world.objects) := by
  intro fresh
  set m₀ : Machine := { (walFlusherStep limit true none m .idle).2 with walFlushers := [.loop] }
  have h₀ : SoloRun limit m m₀ := soloRun_step hw
  obtain ⟨m', h', hw', hm'⟩ := @soloRun_flushImmWALs limit m₀ rfl
  have hr := (reachable_of_run .init h).trans (h₀.trans h').reachable
  have hq : m'.world.state.immWALs = [] := by rw [hm']; exact flushImmWALs_uploadEnv_immWALs _
  obtain ⟨pc, -, hi⟩ := soloWalInv_of_reachable hr
  obtain ⟨done, hfrozen, -, hdone⟩ := hi.queue
  rw [hq, List.append_nil] at hfrozen
  have hall : ∀ W ∈ m'.frozen, m'.HasWalSST W := fun W hW =>
    (bucketInv_of_reachable hr).hasWalSST hW (hdone W (hfrozen ▸ hW))
  refine ⟨m', h₀.trans h', hw', hq, h'.reachable.frozen_prefix, fun W hW => ?_, hall,
    fun hf W hW => ?_⟩
  · have hq₀ : m₀.world.state.immWALs = m.world.state.immWALs ++ fresh := by
      simp only [m₀, fresh, walFlusherStep, mapState, DBState.freezeWAL_immWALs]
    rw [hm', flushImmWALs_uploadEnv_objects, hq₀]
    exact List.mem_append_right _ (List.mem_map_of_mem _ hW)
  · obtain ⟨n, hn⟩ := h₀.trans h'
    have hrun : run limit (init 1 k) (evs ++ List.replicate n (.walFlusher 0 true none)) = some m' := by
      rw [run_append, h]; exact hn
    have hb := bucketInv_of_run hrun fun ev hev => by
      rcases List.mem_append.mp hev with hev | hev
      · exact hf ev hev
      · rw [List.eq_of_mem_replicate hev]; rfl
    obtain ⟨p, hp, hpW⟩ := hall W hW
    exact hb.eq_walSST trivial hW hp hpW ▸ hp

/-- A history in which the upload of `W1` was cut short by its iterator, then a write: the last
`FlushWAL` finds a WAL to freeze. -/
def truncatedHistoryTrace : List Event :=
  truncatedUploadTrace ++ [.walFlusher 0 true none, .write ⟨[3], ⟨[9], false⟩⟩]

theorem final_flushWAL_makes_writes_durable_after_truncated_upload :
    ∃ m, run 1000 (init 1 0) truncatedHistoryTrace = some m ∧ m.walFlushers = [.idle] ∧
      m.world.state.wal.isEmpty = false ∧
      let fresh : List ImmutableWAL :=
        if m.world.state.wal.isEmpty then [] else [⟨m.world.state.nextWalSSTID, m.world.state.wal⟩]
      ∃ m', SoloRun 1000 m m' ∧ m'.walFlushers = [.idle] ∧ m'.world.state.immWALs = [] ∧
        m.frozen ++ fresh <+: m'.frozen ∧
        (∀ W ∈ m.world.state.immWALs ++ fresh, walSST W ∈ m'.world.objects) ∧
        (∀ W ∈ m'.frozen, ∃ p ∈ m'.world.objects, WalSSTOf W p) ∧
        ((∀ ev ∈ truncatedHistoryTrace, ev.iterFail = none) →
          ∀ W ∈ m'.frozen, walSST W ∈ m'.world.objects) :=
  have hr : run 1000 (init 1 0) truncatedHistoryTrace = some _ := rfl
  ⟨_, hr, rfl, rfl, final_flushWAL_makes_writes_durable hr rfl⟩

end SlateDB
