import SlateDB.Flush

/-! # The memtable flush loop

`flushImmMemtablesToL0` writes the oldest ImmMemtable to an SST under the next ULID, moves it to
L0 and calls `writeManifestSafely`, given here by its outcome, until the queue is empty or a step
fails. -/
namespace SlateDB

/-- A turn of the loop that writes the head of the queue shortens the queue. -/
lemma flushImmMemtablesToL0_decreasing {env : FlushEnv} {w w' : FlushWorld}
    {imm : ImmutableMemtable} {id : ID} {iter : List (Except Err RowEntry)} {hd : Handle}
    (h : w.state.oldestImmMemtable = some imm) (hf : flushImmTable env w id iter = .ok (hd, w')) :
    (w'.state.moveImmMemtableToL0 imm hd).immMemtables.length < w.state.immMemtables.length := by
  obtain ⟨-, sst, rfl⟩ := flushImmTable_eq_ok hf
  have hne : w.state.immMemtables ≠ [] := fun he => by simp [DBState.oldestImmMemtable, he] at h
  have := List.length_pos.mpr hne
  simp only [DBState.moveImmMemtableToL0, List.length_tail]
  omega

/-- `flushImmMemtablesToL0()`, from the next ULID: the world it leaves, the next ULID, and the
error it stopped with, if any. -/
def flushImmMemtablesToL0 (env : FlushEnv) (writeManifestSafely : FlushWorld → Except Err Unit)
    (ulid : ℕ) (w : FlushWorld) : FlushWorld × ℕ × Except Err Unit :=
  match h : w.state.oldestImmMemtable with
  | none => (w, ulid, pure ())
  | some immMemtable =>
    let id := newIDCompacted (toString ulid)
    match h' : flushImmTable env w id
        ((w.state.table immMemtable.seq).iterRun (env.memtableIterFail immMemtable.seq)) with
    | .error e => (w, ulid + 1, throw e)
    | .ok (sstHandle, w') =>
      let w' : FlushWorld := { w' with state := w'.state.moveImmMemtableToL0 immMemtable sstHandle }
      have : w'.state.immMemtables.length < w.state.immMemtables.length :=
        flushImmMemtablesToL0_decreasing h h'
      match writeManifestSafely w' with
      | .error e => (w', ulid + 1, throw e)
      | .ok () => flushImmMemtablesToL0 env writeManifestSafely (ulid + 1) w'
termination_by w.state.immMemtables.length
decreasing_by exact this

section Loop

variable {env : FlushEnv} {wm : FlushWorld → Except Err Unit} {ulid : ℕ} {w : FlushWorld}
  {imm : ImmutableMemtable}

lemma flushImmMemtablesToL0_of_none (h : w.state.oldestImmMemtable = none) :
    flushImmMemtablesToL0 env wm ulid w = (w, ulid, .ok ()) := by
  rw [flushImmMemtablesToL0]; split <;> simp_all

lemma flushImmMemtablesToL0_of_error {e : Err} (h : w.state.oldestImmMemtable = some imm)
    (hf : flushImmTable env w (newIDCompacted (toString ulid))
      ((w.state.table imm.seq).iterRun (env.memtableIterFail imm.seq)) = .error e) :
    flushImmMemtablesToL0 env wm ulid w = (w, ulid + 1, .error e) := by
  rw [flushImmMemtablesToL0]
  split
  · simp_all
  · rename_i I hI
    obtain rfl : I = imm := Option.some.inj (hI.symm.trans h)
    simp only []
    split <;> simp_all

/-- One turn of the loop: the ImmMemtable at the head is written, moved to L0, and the
manifest written. -/
lemma flushImmMemtablesToL0_of_ok {hd : Handle} {w' : FlushWorld}
    (h : w.state.oldestImmMemtable = some imm)
    (hf : flushImmTable env w (newIDCompacted (toString ulid))
      ((w.state.table imm.seq).iterRun (env.memtableIterFail imm.seq)) = .ok (hd, w')) :
    flushImmMemtablesToL0 env wm ulid w =
      let w' := { w' with state := w'.state.moveImmMemtableToL0 imm hd }
      match wm w' with
      | .error e => (w', ulid + 1, .error e)
      | .ok () => flushImmMemtablesToL0 env wm (ulid + 1) w' := by
  rw [flushImmMemtablesToL0]
  split
  · simp_all
  · rename_i I hI
    obtain rfl : I = imm := Option.some.inj (hI.symm.trans h)
    simp only []
    split <;> simp_all

end Loop

/-- The SSTs the loop writes for `imms` from the tables `memtables`, under the ULIDs counting
up from `ulid`: each holds the entries its iterator yields before `fail` stops it, if it does. -/
def memtableSSTs (memtables : List KVTable) (fail : ℕ → Option (ℕ × Err)) :
    ℕ → List ImmutableMemtable → List (ID × SSTContent)
  | _, [] => []
  | ulid, imm :: imms =>
    (newIDCompacted (toString ulid),
      ((memtables.getD imm.seq KVTable.empty).iterEntries (fail imm.seq)).map addValueArgs) ::
      memtableSSTs memtables fail (ulid + 1) imms

/-- When every manifest write succeeds, `flushImmMemtablesToL0` writes a prefix of the queue,
oldest first, each as an SST of what its iterator yields, and stops only at a refused upload. -/
theorem flushImmMemtablesToL0_spec (env : FlushEnv) (ulid : ℕ) (w : FlushWorld) :
    let r := flushImmMemtablesToL0 env (fun _ => .ok ()) ulid w
    ∃ done rest, w.state.immMemtables = done ++ rest ∧ r.1.state.immMemtables = rest ∧
      r.1.objects = w.objects ++ memtableSSTs w.state.memtables env.memtableIterFail ulid done ∧
      r.1.state.l0.map (·.id) = ((memtableSSTs w.state.memtables env.memtableIterFail ulid done).map
        (·.1)).reverse ++ w.state.l0.map (·.id) ∧
      r.1.state.lastCompactedWalSSTID =
        (done.getLast?.map (·.lastWalID)).getD w.state.lastCompactedWalSSTID ∧
      (r.2 = (ulid + done.length, .ok ()) ∧ rest = [] ∨
        r.2 = (ulid + done.length + 1, .error .objectStore) ∧ rest ≠ [] ∧
          env.uploadOk (newIDCompacted (toString (ulid + done.length))) = false) := by
  obtain ⟨q, hq⟩ : ∃ q, w.state.immMemtables = q := ⟨_, rfl⟩
  induction q generalizing w ulid with
  | nil =>
    intro r
    have hr : r = (w, ulid, .ok ()) :=
      flushImmMemtablesToL0_of_none (by simp [DBState.oldestImmMemtable, hq])
    refine ⟨[], [], by simp [hq], by rw [hr, hq], by simp [hr, memtableSSTs], by simp [hr, memtableSSTs],
      by simp [hr], .inl ⟨by simp [hr], rfl⟩⟩
  | cons imm q ih =>
    intro r
    have hI : w.state.oldestImmMemtable = some imm := by simp [DBState.oldestImmMemtable, hq]
    by_cases hok : env.uploadOk (newIDCompacted (toString ulid)) = true
    · let sst := ((w.state.table imm.seq).iterEntries (env.memtableIterFail imm.seq)).map addValueArgs
      obtain ⟨hd, hf⟩ : ∃ hd, flushImmTable env w (newIDCompacted (toString ulid))
          ((w.state.table imm.seq).iterRun (env.memtableIterFail imm.seq)) = .ok (hd, { w with
            objects := w.objects ++ [(newIDCompacted (toString ulid), sst)] }) :=
        ⟨_, by rw [flushImmTable_iterRun]; simp only [writeSST, hok, if_true]; rfl⟩
      have hid := (flushImmTable_eq_ok hf).1
      let w₁ : FlushWorld := { w with
        objects := w.objects ++ [(newIDCompacted (toString ulid), sst)]
        state := w.state.moveImmMemtableToL0 imm hd }
      have hr : r = flushImmMemtablesToL0 env (fun _ => .ok ()) (ulid + 1) w₁ :=
        flushImmMemtablesToL0_of_ok hI hf
      obtain ⟨done, rest, h1, h2, h3, h4, h5, h6⟩ :=
        ih (ulid + 1) w₁ (by simp [w₁, DBState.moveImmMemtableToL0, hq])
      have hlen : ulid + 1 + done.length = ulid + (imm :: done).length := by
        rw [List.length_cons]; omega
      rw [hr]
      refine ⟨imm :: done, rest, by simp [hq, ← h1, DBState.moveImmMemtableToL0], h2, ?_, ?_, ?_, ?_⟩
      · simp [h3, memtableSSTs, DBState.table, DBState.moveImmMemtableToL0, sst]
      · simp [h4, memtableSSTs, DBState.moveImmMemtableToL0, hid]
      · rw [h5]
        cases hl : done.getLast? <;> simp [hl, List.getLast?_cons, w₁, DBState.moveImmMemtableToL0]
      · rwa [← hlen]
    · have hf : flushImmTable env w (newIDCompacted (toString ulid))
          ((w.state.table imm.seq).iterRun (env.memtableIterFail imm.seq)) = .error .objectStore := by
        rw [flushImmTable_iterRun]; simp [writeSST, hok]
      have hr : r = (w, ulid + 1, .error .objectStore) := flushImmMemtablesToL0_of_error hI hf
      refine ⟨[], imm :: q, by simp [hq], by rw [hr, hq], by simp [hr, memtableSSTs],
        by simp [hr, memtableSSTs], by simp [hr], .inr ⟨by simp [hr], by simp, by simpa using hok⟩⟩

end SlateDB
