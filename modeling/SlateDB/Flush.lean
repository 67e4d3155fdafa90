import SlateDB.Go
import SlateDB.DBState

/-! # Flushing the ImmWAL queue

`flushImmWALs` of `flush.go`, run by one flusher, with an SST taken as the `AddValue` calls made
on its builder. The bucket may refuse any upload, and any iterator may fail. -/
namespace SlateDB

/-- The content of an SST that `flushImmTable` builds: the `AddValue` calls on its builder. -/
abbrev SSTContent := List (Bytes × Bytes)

/-- Modelled from the spec: `table.KVTableIterator` (absent) as its `NextEntry` calls see it:
the table's entries in order, unless the call numbered `n` fails with `e`. -/
def KVTable.iterRun (t : KVTable) : Option (ℕ × Err) → List (Except Err RowEntry)
  | none => t.entries.map .ok
  | some (n, e) => (t.entries.take n).map .ok ++ [.error e]

/-- The entries a run of `iterRun` yields before it ends or fails. -/
def KVTable.iterEntries (t : KVTable) : Option (ℕ × Err) → List RowEntry
  | none => t.entries
  | some (n, _) => t.entries.take n

@[simp] lemma KVTable.iterEntries_none (t : KVTable) : t.iterEntries none = t.entries := rfl

/-- What one flusher's run touches: the DB state, the SSTs in the bucket in upload order, and
the ImmWALs notified durable, in order. -/
structure FlushWorld where
  state : DBState
  objects : List (ID × SSTContent)
  notified : List ℕ
  deriving DecidableEq

/-- The failures a run meets, and the memtable size limit. -/
structure FlushEnv where
  l0SSTSizeBytes : ℕ
  /-- Where the iterator that `flushImmWAL` opens on the ImmWAL of an id fails, if it does. -/
  uploadIterFail : ℕ → Option (ℕ × Err)
  /-- Where the iterator that `flushImmWALToMemtable` opens on it fails, if it does. -/
  replayIterFail : ℕ → Option (ℕ × Err)
  /-- Where the iterator that `flushImmMemtablesToL0` opens on the ImmMemtable numbered `seq`
  fails, if it does. -/
  memtableIterFail : ℕ → Option (ℕ × Err)
  /-- Whether the bucket takes the upload of an SST. -/
  uploadOk : ID → Bool

/-- Modelled from the spec: `Builder.AddValue` (absent), which records the pair. -/
def addValue (b : SSTContent) (key value : Bytes) : Except Err SSTContent :=
  pure (b ++ [(key, value)])

/-- What `flushImmTable` passes to `AddValue` for an entry: its value, or nothing for a
tombstone. -/
def addValueArgs (kv : RowEntry) : Bytes × Bytes :=
  (kv.key, if !kv.value.isTombstone then kv.value.value else [])

/-- The loop of `flushImmTable`: every entry is added until the iterator ends or fails. -/
def flushImmTableLoop : SSTContent → List (Except Err RowEntry) → Except Err SSTContent
  | b, [] => pure b
  | b, .error _ :: _ => pure b
  | b, .ok kv :: rest => do
    let b ← addValue b (addValueArgs kv).1 (addValueArgs kv).2
    flushImmTableLoop b rest

/-- Modelled from the spec: `WriteSST(ctx, id, encodedSST)` of the store's table store
(absent): the upload, which the bucket may refuse, and the handle of the SST. -/
def writeSST (env : FlushEnv) (w : FlushWorld) (id : ID) (sst : SSTContent) :
    Except Err (Handle × FlushWorld) :=
  if env.uploadOk id then
    pure (⟨id, ⟨(sst.head?.map (·.1)).getD []⟩⟩, { w with objects := w.objects ++ [(id, sst)] })
  else throw .objectStore

/-- `flushImmTable(ctx, id, iter)`: the SST built from the iterator, then written. -/
def flushImmTable (env : FlushEnv) (w : FlushWorld) (id : ID) (iter : List (Except Err RowEntry)) :
    Except Err (Handle × FlushWorld) := do
  let encodedSST ← flushImmTableLoop [] iter
  writeSST env w id encodedSST

/-- `flushImmWAL(ctx, immWAL)`. -/
def flushImmWAL (env : FlushEnv) (w : FlushWorld) (immWAL : ImmutableWAL) :
    Except Err (Handle × FlushWorld) :=
  flushImmTable env w (newIDWal immWAL.id) (immWAL.table.iterRun (env.uploadIterFail immWAL.id))

/-- The loop of `flushImmWALToMemtable`: entries are put until the iterator ends or fails. -/
def replayLoop (seq : ℕ) : DBState → List (Except Err RowEntry) → DBState
  | s, [] => s
  | s, .error _ :: _ => s
  | s, .ok e :: rest => replayLoop seq (s.putMemtable seq e) rest

/-- `flushImmWALToMemtable(immWal, memtable)`, on the memtable numbered `seq`. -/
def flushImmWALToMemtable (env : FlushEnv) (immWal : ImmutableWAL) (seq : ℕ) (s : DBState) :
    DBState :=
  (replayLoop seq s (immWal.table.iterRun (env.replayIterFail immWal.id))).setLastWalID seq immWal.id

section Frame

variable {env : FlushEnv} {w w' : FlushWorld} {h : Handle}

lemma writeSST_eq_ok {id : ID} {sst : SSTContent} (hw : writeSST env w id sst = .ok (h, w')) :
    env.uploadOk id ∧ w' = { w with objects := w.objects ++ [(id, sst)] } := by
  unfold writeSST at hw
  split_ifs at hw with hok
  cases hw; exact ⟨hok, rfl⟩

/-- A successful `flushImmTable` adds one SST under `id` to the bucket, and its handle names it. -/
lemma flushImmTable_eq_ok {id : ID} {iter : List (Except Err RowEntry)}
    (hf : flushImmTable env w id iter = .ok (h, w')) :
    h.id = id ∧ ∃ sst, w' = { w with objects := w.objects ++ [(id, sst)] } := by
  obtain ⟨sst, -, hw⟩ := except_bind_eq_ok.mp hf
  unfold writeSST at hw
  split_ifs at hw
  cases hw
  exact ⟨rfl, sst, rfl⟩

/-- A run of `NextEntry` that yields `l` and then ends or fails. -/
def EndsAfter (l : List RowEntry) (iter : List (Except Err RowEntry)) : Prop :=
  iter = l.map .ok ∨ ∃ e, iter = l.map .ok ++ [.error e]

lemma iterRun_endsAfter (t : KVTable) (f : Option (ℕ × Err)) :
    EndsAfter (t.iterEntries f) (t.iterRun f) := by
  cases f with
  | none => exact .inl rfl
  | some f => exact .inr ⟨f.2, rfl⟩

/-- `flushImmTable`'s builder holds exactly the entries its iterator yields. -/
lemma flushImmTableLoop_eq {l : List RowEntry} {iter : List (Except Err RowEntry)}
    (h : EndsAfter l iter) (b : SSTContent) :
    flushImmTableLoop b iter = .ok (b ++ l.map addValueArgs) := by
  induction l generalizing b iter with
  | nil => rcases h with rfl | ⟨e, rfl⟩ <;> simp [flushImmTableLoop]
  | cons kv l ih =>
    have hl : EndsAfter l iter.tail := by rcases h with rfl | ⟨e, rfl⟩ <;> simp [EndsAfter]
    have hiter : iter = .ok kv :: iter.tail := by rcases h with rfl | ⟨e, rfl⟩ <;> rfl
    rw [hiter]
    simp [flushImmTableLoop, addValue, ih hl]

/-- The replay puts exactly the entries its iterator yields, in order. -/
lemma replayLoop_eq {l : List RowEntry} {iter : List (Except Err RowEntry)} (h : EndsAfter l iter)
    (seq : ℕ) (s : DBState) : replayLoop seq s iter = l.foldl (·.putMemtable seq ·) s := by
  induction l generalizing s iter with
  | nil => rcases h with rfl | ⟨e, rfl⟩ <;> rfl
  | cons e l ih =>
    have hl : EndsAfter l iter.tail := by rcases h with rfl | ⟨e, rfl⟩ <;> simp [EndsAfter]
    have hiter : iter = .ok e :: iter.tail := by rcases h with rfl | ⟨e, rfl⟩ <;> rfl
    rw [hiter]
    simp [replayLoop, ih hl]

/-- On a table's iterator, `flushImmTable` writes an SST of the entries the iterator yields. -/
lemma flushImmTable_iterRun (t : KVTable) (f : Option (ℕ × Err)) (id : ID) :
    flushImmTable env w id (t.iterRun f) = writeSST env w id ((t.iterEntries f).map addValueArgs) := by
  simp [flushImmTable, flushImmTableLoop_eq (iterRun_endsAfter t f)]

lemma flushImmTable_iterRun_none (t : KVTable) (id : ID) :
    flushImmTable env w id (t.iterRun none) = writeSST env w id (t.entries.map addValueArgs) :=
  flushImmTable_iterRun t none id

/-- A successful `flushImmTable` on a table's iterator adds the SST of the entries it yields under
`id`, and its handle records that SST's first key. -/
lemma flushImmTable_iterRun_eq_ok {t : KVTable} {f : Option (ℕ × Err)} {id : ID}
    (hf : flushImmTable env w id (t.iterRun f) = .ok (h, w')) :
    h = ⟨id, ⟨((((t.iterEntries f).map addValueArgs).head?.map (·.1)).getD [])⟩⟩ ∧
      w' = { w with objects := w.objects ++ [(id, (t.iterEntries f).map addValueArgs)] } := by
  rw [flushImmTable_iterRun] at hf
  unfold writeSST at hf
  split_ifs at hf
  cases hf
  exact ⟨rfl, rfl⟩

lemma flushImmWAL_eq_error {immWal : ImmutableWAL} {e : Err}
    (hf : flushImmWAL env w immWal = .error e) :
    e = .objectStore ∧ env.uploadOk (newIDWal immWal.id) = false := by
  simp only [flushImmWAL, flushImmTable, flushImmTableLoop_eq (iterRun_endsAfter _ _),
    List.nil_append, except_ok_bind, writeSST] at hf
  split_ifs at hf with hok
  · cases hf
  · injection hf with hf
    exact ⟨hf.symm, by simpa using hok⟩

@[simp] lemma replayLoop_immWALs (seq : ℕ) (s : DBState) (iter : List (Except Err RowEntry)) :
    (replayLoop seq s iter).immWALs = s.immWALs := by
  induction iter generalizing s with
  | nil => rfl
  | cons r iter ih => cases r <;> simp [replayLoop, ih]

/-- A successful `flushImmWAL` only adds the SST `WAL(id)` of the entries its iterator
yields. -/
lemma flushImmWAL_eq_ok {immWal : ImmutableWAL} (hf : flushImmWAL env w immWal = .ok (h, w')) :
    env.uploadOk (newIDWal immWal.id) ∧ w' = { w with objects := w.objects ++
      [(newIDWal immWal.id, (immWal.table.iterEntries (env.uploadIterFail immWal.id)).map addValueArgs)] } := by
  simp only [flushImmWAL, flushImmTable, flushImmTableLoop_eq (iterRun_endsAfter _ _),
    List.nil_append, except_ok_bind] at hf
  exact writeSST_eq_ok hf

end Frame

/-- A turn of `flushImmWALs`'s loop that writes the head of the queue shortens the queue. -/
lemma flushImmWALs_decreasing {env : FlushEnv} {w w' : FlushWorld} {immWal : ImmutableWAL}
    {hd : Handle} (h : w.state.oldestImmWAL = some immWal)
    (hf : flushImmWAL env w immWal = .ok (hd, w')) :
    ((flushImmWALToMemtable env immWal w'.state.popImmWAL.memtable.seq
      w'.state.popImmWAL).maybeFreezeMemtable env.l0SSTSizeBytes immWal.id).immWALs.length <
        w.state.immWALs.length := by
  obtain ⟨-, rfl⟩ := flushImmWAL_eq_ok hf
  have hne : w.state.immWALs ≠ [] := fun he => by simp [DBState.oldestImmWAL, he] at h
  have := List.length_pos.mpr hne
  simp only [flushImmWALToMemtable, DBState.maybeFreezeMemtable_immWALs,
    DBState.setLastWalID_immWALs, replayLoop_immWALs, DBState.popImmWAL_immWALs, List.length_tail]
  omega

/-- `flushImmWALs(ctx)`: the loop over the head of the ImmWAL queue. -/
def flushImmWALs (env : FlushEnv) (w : FlushWorld) : FlushWorld × Except Err Unit :=
  match h : w.state.oldestImmWAL with
  | none => (w, pure ())
  | some immWal =>
    match h' : flushImmWAL env w immWal with
    | .error e => (w, throw e)
    | .ok (_, w') =>
      let s := w'.state.popImmWAL
      let s := flushImmWALToMemtable env immWal s.memtable.seq s
      let s := s.maybeFreezeMemtable env.l0SSTSizeBytes immWal.id
      have : s.immWALs.length < w.state.immWALs.length := flushImmWALs_decreasing h h'
      flushImmWALs env { w' with state := s, notified := w'.notified ++ [immWal.id] }
termination_by w.state.immWALs.length
decreasing_by exact this

section Loop

variable {env : FlushEnv} {w w' : FlushWorld} {immWal : ImmutableWAL}

lemma flushImmWALs_of_none (h : w.state.oldestImmWAL = none) :
    flushImmWALs env w = (w, .ok ()) := by
  rw [flushImmWALs]; split <;> simp_all

lemma flushImmWALs_of_error {e : Err} (h : w.state.oldestImmWAL = some immWal)
    (hf : flushImmWAL env w immWal = .error e) : flushImmWALs env w = (w, .error e) := by
  rw [flushImmWALs]
  split
  · simp_all
  · rename_i W hW
    obtain rfl : W = immWal := Option.some.inj (hW.symm.trans h)
    split <;> simp_all

/-- One turn of the loop: the ImmWAL at the head is written, popped, replayed into the live
memtable, which may then freeze, and notified. -/
lemma flushImmWALs_of_ok {hd : Handle} (h : w.state.oldestImmWAL = some immWal)
    (hf : flushImmWAL env w immWal = .ok (hd, w')) :
    flushImmWALs env w = flushImmWALs env { w' with
      state := (flushImmWALToMemtable env immWal w'.state.popImmWAL.memtable.seq
        w'.state.popImmWAL).maybeFreezeMemtable env.l0SSTSizeBytes immWal.id
      notified := w'.notified ++ [immWal.id] } := by
  rw [flushImmWALs]
  split
  · simp_all
  · rename_i W hW
    obtain rfl : W = immWal := Option.some.inj (hW.symm.trans h)
    split <;> simp_all

/-- One turn of the loop, as seen from the queue, the bucket and the notifications. -/
lemma flushImmWALs_step {hd : Handle} (h : w.state.oldestImmWAL = some immWal)
    (hf : flushImmWAL env w immWal = .ok (hd, w')) :
    ∃ w₁, flushImmWALs env w = flushImmWALs env w₁ ∧ w₁.state.immWALs = w.state.immWALs.tail ∧
      w₁.objects = w'.objects ∧ w₁.notified = w'.notified ++ [immWal.id] := by
  obtain ⟨-, rfl⟩ := flushImmWAL_eq_ok hf
  exact ⟨_, flushImmWALs_of_ok h hf, by simp [flushImmWALToMemtable], rfl, rfl⟩

end Loop

/-- `FlushWAL(ctx)`: the WAL is frozen, then the queue flushed. -/
def flushWAL (env : FlushEnv) (w : FlushWorld) : FlushWorld × Except Err Unit :=
  flushImmWALs env { w with state := w.state.freezeWAL }

/-- `flushImmTable` writes the same SST for a tombstone as for the empty value, so no reader of
it can give both tables back. -/
theorem flushImmTable_tombstone_as_empty_value (env : FlushEnv) (w : FlushWorld) (id : ID) :
    flushImmTable env w id ((KVTable.empty.delete [1]).iterRun none) = writeSST env w id [([1], [])] ∧
    flushImmTable env w id ((KVTable.empty.put [1] []).iterRun none) = writeSST env w id [([1], [])] ∧
    ∀ read : SSTContent → List RowEntry,
      read [([1], [])] ≠ (KVTable.empty.delete [1]).entries ∨
        read [([1], [])] ≠ (KVTable.empty.put [1] []).entries := by
  refine ⟨flushImmTable_iterRun_none _ _, flushImmTable_iterRun_none _ _, fun read => ?_⟩
  by_cases h : read [([1], [])] = (KVTable.empty.delete [1]).entries
  · exact .inr (h ▸ by decide)
  · exact .inl h

/-- With iterators that do not fail, `flushImmWALs` writes, pops and notifies a prefix of the
queue, each ImmWAL as an SST of all its entries, and stops only at a refused upload. -/
theorem flushImmWALs_spec (env : FlushEnv) (w : FlushWorld) :
    let env : FlushEnv := { env with uploadIterFail := fun _ => none }
    ∃ done rest, w.state.immWALs = done ++ rest ∧
      (flushImmWALs env w).1.state.immWALs = rest ∧
      (flushImmWALs env w).1.notified = w.notified ++ done.map (·.id) ∧
      (flushImmWALs env w).1.objects =
        w.objects ++ done.map (fun W => (newIDWal W.id, W.table.entries.map addValueArgs)) ∧
      ((flushImmWALs env w).2 = .ok () ∧ rest = [] ∨
        (flushImmWALs env w).2 = .error .objectStore ∧
          ∃ W ∈ rest.head?, env.uploadOk (newIDWal W.id) = false) := by
  intro env
  obtain ⟨q, hq⟩ : ∃ q, w.state.immWALs = q := ⟨_, rfl⟩
  induction q generalizing w with
  | nil =>
    rw [flushImmWALs_of_none (by simp [DBState.oldestImmWAL, hq])]
    exact ⟨[], [], by simp [hq], hq, by simp, by simp, .inl ⟨rfl, rfl⟩⟩
  | cons W q ih =>
    have hW : w.state.oldestImmWAL = some W := by simp [DBState.oldestImmWAL, hq]
    cases hf : flushImmWAL env w W with
    | error e =>
      obtain ⟨rfl, hok⟩ := flushImmWAL_eq_error hf
      rw [flushImmWALs_of_error hW hf]
      exact ⟨[], W :: q, by simp [hq], hq, by simp, by simp, .inr ⟨rfl, W, rfl, hok⟩⟩
    | ok r =>
      obtain ⟨hd, w'⟩ := r
      obtain ⟨w₁, hrun, h1q, h1o, h1n⟩ := flushImmWALs_step hW hf
      obtain ⟨-, rfl⟩ := flushImmWAL_eq_ok hf
      rw [hrun]
      obtain ⟨done, rest, h1, h2, h3, h4, h5⟩ := ih w₁ (by rw [h1q, hq]; rfl)
      refine ⟨W :: done, rest, by simp [hq, ← h1, h1q], h2, by simp [h3, h1n], ?_, h5⟩
      simp [h4, h1o, env, KVTable.iterEntries]

/-- An ImmWAL of two entries, the first of which the upload's iterator yields before failing. -/
def twoEntryImmWAL : ImmutableWAL := ⟨1, (KVTable.empty.put [1] [7]).put [2] [8]⟩

/-- A queue holding only `twoEntryImmWAL`, with an empty memtable. -/
def twoEntryQueueWorld : FlushWorld :=
  ⟨⟨KVTable.empty, ⟨0, 0⟩, [twoEntryImmWAL], [], [KVTable.empty], 2, 0, []⟩, [], []⟩

/-- The iterator `flushImmWAL` opens on ImmWAL 1 fails at its second `NextEntry`. -/
def secondNextEntryFails : FlushEnv :=
  ⟨1000, fun id => if id = 1 then some (1, .other "iterator failed") else none, fun _ => none,
    fun _ => none, fun _ => true⟩

/-- On that failure `flushImmWALs` uploads an SST of the first entry only as `WAL(1)`, and
reports success with the ImmWAL popped and notified. -/
theorem flushImmWALs_uploads_truncated_sst :
    (flushImmWALs secondNextEntryFails twoEntryQueueWorld).2 = .ok () ∧
      (flushImmWALs secondNextEntryFails twoEntryQueueWorld).1.state.immWALs = [] ∧
      (flushImmWALs secondNextEntryFails twoEntryQueueWorld).1.notified = [1] ∧
      (flushImmWALs secondNextEntryFails twoEntryQueueWorld).1.objects =
        [(newIDWal 1, [([1], [7])])] ∧
      twoEntryImmWAL.table.entries.map addValueArgs = [([1], [7]), ([2], [8])] := by
  rw [@flushImmWALs_of_ok secondNextEntryFails twoEntryQueueWorld _ twoEntryImmWAL _ rfl rfl,
    flushImmWALs_of_none]
  exacts [⟨rfl, rfl, rfl, rfl, rfl⟩, rfl]

end SlateDB
