import SlateDB.SortedRun

/-! Iterators over a sorted run, in the compaction package and in the older slatedb package.
An iterator holds the SST iterator it is reading and the SSTs it has not opened; `NextEntry`
moves on to the next SST whenever the current one is exhausted, and `Next` skips tombstones.
From a key, the iterator starts at the SST the lookup names and seeks inside it. -/
namespace SlateDB

/-- Calls a stateful step `n` times and collects what each call returns. -/
def outputs {σ β : Type} (step : σ → β × σ) : ℕ → σ → List β
  | 0, _ => []
  | n + 1, s => (step s).1 :: outputs step n (step s).2

/-- Calling `step` repeatedly from `s` returns the items of `l` in order and `stop` on every
call after them. -/
def Drains {σ β : Type} (step : σ → β × σ) (s : σ) (l : List β) (stop : β) : Prop :=
  ∀ n, outputs step n s = (l ++ List.replicate n stop).take n

lemma take_append_replicate {α : Type} (l : List α) (x : α) {m n : ℕ} (h : n ≤ m) :
    (l ++ List.replicate m x).take n = (l ++ List.replicate n x).take n := by
  simp only [List.take_append_eq_append_take, List.take_replicate]
  congr 2
  omega

/-- A step that hands out the head of an abstract list of items still to come, and leaves
its tail, drains that list. -/
lemma drains_of_head {σ α β : Type} {step : σ → β × σ} (rest : σ → List α) (f : Option α → β)
    {inv : σ → Prop} (hstep : ∀ s, inv s → (step s).1 = f (rest s).head? ∧
      rest (step s).2 = (rest s).tail ∧ inv (step s).2)
    {s : σ} (hs : inv s) : Drains step s ((rest s).map (f ∘ some)) (f none) := by
  intro n
  induction n generalizing s with
  | zero => rfl
  | succ n ih =>
    obtain ⟨h1, h2, h3⟩ := hstep s hs
    rw [outputs, ih h3, h1, h2]
    rw [← take_append_replicate _ _ (Nat.le_succ n)]
    cases rest s with
    | nil => simp only [List.map_nil, List.nil_append, List.take_replicate, List.head?_nil]; simp; rfl
    | cons a t => simp

/-- The entries of a run, SST after SST. -/
def runEntries (content : Handle → List RowEntry) (ssts : List Handle) : List RowEntry :=
  ssts.flatMap content

/-- The entries at or above `key`. -/
def entriesFrom (key : Bytes) (es : List RowEntry) : List RowEntry :=
  es.filter fun e => decide (key ≤ e.key)

/-- The present values among the entries, as `Next` returns them. -/
def liveValues (es : List RowEntry) : List KeyValue :=
  es.filterMap fun e => if e.value.isTombstone then none else some ⟨e.key, e.value.value⟩

lemma liveValues_cons (e : RowEntry) (es : List RowEntry) :
    liveValues (e :: es) =
      if e.value.isTombstone then liveValues es else ⟨e.key, e.value.value⟩ :: liveValues es := by
  by_cases h : e.value.isTombstone <;> simp [liveValues, h]

/-- Modelled from the spec: `sstable.Iterator` (absent), which yields an SST's
entries in key order and supports seek-to-key. It is held as the entries still to come. -/
abbrev SstableIterator := List RowEntry

/-- The seek of an SST iterator: the entries from the first one at or above `key`. -/
def seekTo (key : Bytes) (es : List RowEntry) : List RowEntry :=
  es.dropWhile fun e => decide (e.key < key)

section FromKey

variable {content : Handle → List RowEntry} {ssts : List Handle} {key : Bytes} {r : ℕ}

/-- On ascending entries, seeking to a key keeps exactly the entries at or above it. -/
lemma seekTo_eq_entriesFrom {es : List RowEntry} (h : KeysAscending es) :
    seekTo key es = entriesFrom key es := by
  induction es with
  | nil => rfl
  | cons e es ih =>
    simp only [KeysAscending, List.map_cons, List.sorted_cons, List.mem_map] at h
    by_cases hk : e.key < key
    · simp [seekTo, entriesFrom, List.dropWhile_cons, List.filter_cons, hk, not_le.mpr hk] at ih ⊢
      exact ih h.2
    · have hall : ∀ x ∈ es, key ≤ x.key := fun x hx =>
        (not_lt.mp hk).trans (h.1 _ ⟨x, hx, rfl⟩).le
      have hf : es.filter (fun x => decide (key ≤ x.key)) = es :=
        List.filter_eq_self.mpr fun x hx => decide_eq_true (hall x hx)
      simp [seekTo, entriesFrom, List.dropWhile_cons, List.filter_cons, hk, not_lt.mp hk, hf]

/-- The entries of a well-formed run are in ascending key order. -/
lemma RunInvariant.runEntries_ascending (hinv : RunInvariant content ssts) :
    KeysAscending (runEntries content ssts) := by
  induction ssts with
  | nil => exact List.sorted_nil
  | cons a rest ih =>
    have hw := hinv.wellFormed a (by simp)
    have hp : ∀ b ∈ rest, ∀ e ∈ content a, e.key < b.info.firstKey := fun b hb =>
      List.rel_of_pairwise_cons hinv.pairwise hb
    simp only [KeysAscending, runEntries, List.flatMap_cons, List.map_append, List.Sorted,
      List.pairwise_append] at ih ⊢
    refine ⟨hw.ascending, ih hinv.tail, fun x hx y hy => ?_⟩
    obtain ⟨ex, hex, rfl⟩ := List.mem_map.mp hx
    obtain ⟨ey, hey, rfl⟩ := List.mem_map.mp hy
    obtain ⟨b, hb, heyb⟩ := List.mem_flatMap.mp hey
    exact (hp b hb ex hex).trans_le ((hinv.wellFormed b (by simp [hb])).firstKey_le heyb)

/-- The SSTs from the split point on start above the key. -/
lemma firstKey_above_of_mem_drop (hsplit : IsSplit (aboveKey (firstKeys ssts) key) ssts.length r)
    {m : ℕ} (hm : r ≤ m) {b : Handle} (hb : b ∈ ssts.drop m) : key < b.info.firstKey := by
  obtain ⟨i, hi, rfl⟩ := List.mem_iff_getElem.mp hb
  have hlt : m + i < ssts.length := by simp at hi; omega
  have := hsplit.2.2 (m + i) (by omega) hlt
  rw [aboveKey_firstKeys hlt, decide_eq_true_eq] at this
  simpa [List.getElem_drop] using this

/-- The SSTs before the one the lookup names hold only keys below the key. -/
lemma entriesFrom_runEntries_drop (hinv : RunInvariant content ssts)
    (hsplit : IsSplit (aboveKey (firstKeys ssts) key) ssts.length r) :
    entriesFrom key (runEntries content ssts) = entriesFrom key (runEntries content (ssts.drop (r - 1))) := by
  conv_lhs => rw [← List.take_append_drop (r - 1) ssts]
  rw [runEntries, List.flatMap_append, entriesFrom, List.filter_append, List.filter_eq_nil_iff.mpr,
    List.nil_append]
  · rfl
  intro e he
  obtain ⟨a, ha, hea⟩ := List.mem_flatMap.mp he
  obtain ⟨j, hj, rfl⟩ := List.mem_iff_getElem.mp ha
  have hjr : j < r - 1 := by rw [List.length_take] at hj; omega
  have hr : r - 1 < ssts.length := by have := hsplit.1; omega
  have hfk := hsplit.2.1 (r - 1) (by omega)
  rw [aboveKey_firstKeys hr, decide_eq_false_iff_not, not_lt] at hfk
  have := List.pairwise_iff_getElem.mp hinv.pairwise j (r - 1) (by omega) hr hjr e
    (by simpa [List.getElem_take] using hea)
  exact fun h => (this.trans_le hfk).not_le (of_decide_eq_true h)

/-- The SST list an iterator from the key starts with: `sstList[idx:]` for the index the
lookup returns, all of it for none. -/
lemma startList_eq (l : List Handle) (r : ℕ) :
    (match floorOfSplit r with
      | some idx => l.drop idx
      | none => l) = l.drop (r - 1) := by
  unfold floorOfSplit
  split_ifs with h
  · rfl
  · simp [show r = 0 by omega]

end FromKey

namespace Compaction

section Iterator

-- The table store, as the entries it reads for an SST or the error that read ends in.
variable (read : Handle → Except Err (List RowEntry))

/-- `sstable.NewIterator`: opens an SST through the table store. -/
def newIterator (sst : Handle) : Except Err SstableIterator := read sst

/-- `sstable.NewIteratorAtKey`: opens an SST and seeks to `key`. -/
def newIteratorAtKey (sst : Handle) (key : Bytes) : Except Err SstableIterator :=
  seekTo key <$> read sst

/-- `compaction.SortedRunIterator`. Its `SSTListIterator` is held as the SSTs not yet handed
out, its table store is `read`, and `warn` records the errors it met as warnings. -/
structure SortedRunIterator where
  currentKVIter : Option SstableIterator
  sstListIter : List Handle
  warn : List Err
  deriving DecidableEq, Repr

/-- `newSortedRunIter`: opens the first SST, seeking to `fromKey` when there is one. -/
def newSortedRunIter (sstList : List Handle) (fromKey : Option Bytes) :
    Except Err SortedRunIterator :=
  match sstList with
  | [] => pure ⟨none, [], []⟩
  | sst :: rest => do
    let iter ← match fromKey with
      | some key => newIteratorAtKey read sst key
      | none => newIterator read sst
    pure ⟨some iter, rest, []⟩

/-- `NewSortedRunIterator`. -/
def newSortedRunIterator (sr : SortedRun) : Except Err SortedRunIterator :=
  newSortedRunIter read sr.sstList none

/-- `NewSortedRunIteratorFromKey`: starts at the SST that `indexOfSSTWithKey` names. -/
def newSortedRunIteratorFromKey (sr : SortedRun) (key : Bytes) : Except Err SortedRunIterator := do
  let sstList := match ← sr.indexOfSSTWithKey key with
    | some idx => sr.sstList.drop idx
    | none => sr.sstList
  newSortedRunIter read sstList (some key)

/-- The `for` loop of `SortedRunIterator.NextEntry`: an exhausted SST iterator makes it open
the next SST, and an SST that fails to open ends the call with a warning. -/
def nextEntryLoop : Option SstableIterator → List Handle → List Err → Option RowEntry × SortedRunIterator
  | none, ssts, warn => (none, ⟨none, ssts, warn⟩)
  | some (e :: es), ssts, warn => (some e, ⟨some es, ssts, warn⟩)
  | some [], [], warn => (none, ⟨some [], [], warn⟩)
  | some [], sst :: rest, warn =>
    match newIterator read sst with
    | .ok iter => nextEntryLoop (some iter) rest warn
    | .error err => (none, ⟨some [], rest, warn ++ [err]⟩)

/-- `SortedRunIterator.NextEntry`. -/
def SortedRunIterator.nextEntry (it : SortedRunIterator) : Option RowEntry × SortedRunIterator :=
  nextEntryLoop read it.currentKVIter it.sstListIter it.warn

/-- The number of entries the iterator can still hand out. -/
def SortedRunIterator.pending (it : SortedRunIterator) : ℕ :=
  (it.currentKVIter.getD []).length + (it.sstListIter.map fun h => ((read h).toOption.getD []).length).sum

/-- Handing out the head of the current SST iterator lowers what is pending by one. -/
lemma pending_lt_of_cons (x : RowEntry) (xs : List RowEntry) (ssts : List Handle)
    (warn : List Err) : (SortedRunIterator.mk (some xs) ssts warn).pending read <
      (SortedRunIterator.mk (some (x :: xs)) ssts warn).pending read :=
  Nat.add_lt_add_right (Nat.lt_succ_self _) _

lemma nextEntryLoop_pending {cur : Option SstableIterator} {ssts : List Handle} {warn : List Err}
    {e : RowEntry} {it : SortedRunIterator} (h : nextEntryLoop read cur ssts warn = (some e, it)) :
    it.pending read < (SortedRunIterator.mk cur ssts warn).pending read := by
  induction ssts generalizing cur with
  | nil =>
    rcases cur with _ | _ | ⟨x, xs⟩ <;> cases h
    exact pending_lt_of_cons read _ xs [] warn
  | cons sst rest ih =>
    rcases cur with _ | _ | ⟨x, xs⟩
    · cases h
    · simp only [nextEntryLoop, newIterator] at h
      cases hr : read sst with
      | error err => simp [hr] at h
      | ok iter =>
        simp only [hr] at h
        have := ih h
        simp only [SortedRunIterator.pending, Option.getD_some, List.map_cons, List.sum_cons, hr,
          Except.toOption] at this ⊢
        omega
    · cases h
      exact pending_lt_of_cons read _ xs _ warn

/-- `SortedRunIterator.Next`: `NextEntry` until an entry that is not a tombstone. -/
def SortedRunIterator.next (it : SortedRunIterator) : Option KeyValue × SortedRunIterator :=
  match h : it.nextEntry read with
  | (none, it') => (none, it')
  | (some kv, it') =>
    have := nextEntryLoop_pending read h
    if kv.value.isTombstone then it'.next else (some ⟨kv.key, kv.value.value⟩, it')
termination_by it.pending read
decreasing_by exact this

end Iterator

section Spec

variable (content : Handle → List RowEntry)

/-- The entries still to come when every SST opens: the rest of the current SST, then the
SSTs not yet opened. -/
def SortedRunIterator.remaining (it : SortedRunIterator) : List RowEntry :=
  it.currentKVIter.getD [] ++ runEntries content it.sstListIter

/-- The iterator's shape: without a current SST iterator no SST is left. -/
def SortedRunIterator.Valid (it : SortedRunIterator) : Prop :=
  it.currentKVIter = none → it.sstListIter = []

lemma nextEntryLoop_spec (cur : Option SstableIterator) (ssts : List Handle) (warn : List Err)
    (hv : cur = none → ssts = []) :
    (nextEntryLoop (.ok ∘ content) cur ssts warn).1 = (cur.getD [] ++ runEntries content ssts).head? ∧
    (nextEntryLoop (.ok ∘ content) cur ssts warn).2.remaining content =
      (cur.getD [] ++ runEntries content ssts).tail ∧
    (nextEntryLoop (.ok ∘ content) cur ssts warn).2.Valid := by
  induction ssts generalizing cur with
  | nil =>
    rcases cur with _ | _ | ⟨e, es⟩ <;>
      simp [nextEntryLoop, SortedRunIterator.remaining, SortedRunIterator.Valid, runEntries]
  | cons sst rest ih =>
    rcases cur with _ | _ | ⟨e, es⟩
    · simp at hv
    · simpa [nextEntryLoop, newIterator, runEntries] using ih (some (content sst)) (by simp)
    · simp [nextEntryLoop, SortedRunIterator.remaining, SortedRunIterator.Valid, runEntries]

lemma SortedRunIterator.nextEntry_spec (it : SortedRunIterator) (hv : it.Valid) :
    (it.nextEntry (.ok ∘ content)).1 = (it.remaining content).head? ∧
    (it.nextEntry (.ok ∘ content)).2.remaining content = (it.remaining content).tail ∧
    (it.nextEntry (.ok ∘ content)).2.Valid :=
  nextEntryLoop_spec content _ _ _ hv

/-- `NextEntry` hands out the remaining entries one by one, then reports the end. -/
theorem SortedRunIterator.nextEntry_drains (it : SortedRunIterator) (hv : it.Valid) :
    Drains (·.nextEntry (.ok ∘ content)) it ((it.remaining content).map some) none :=
  drains_of_head (·.remaining content) id (fun s hs => s.nextEntry_spec content hs) hv

lemma SortedRunIterator.next_spec (it : SortedRunIterator) (hv : it.Valid) :
    (it.next (.ok ∘ content)).1 = (liveValues (it.remaining content)).head? ∧
    liveValues ((it.next (.ok ∘ content)).2.remaining content) =
      (liveValues (it.remaining content)).tail ∧
    (it.next (.ok ∘ content)).2.Valid := by
  obtain ⟨n, h⟩ : ∃ n, (it.remaining content).length = n := ⟨_, rfl⟩
  induction n generalizing it with
  | zero =>
    obtain ⟨h1, h2, h3⟩ := it.nextEntry_spec content hv
    rw [List.length_eq_zero] at h
    rw [h] at h1 h2
    rw [SortedRunIterator.next]
    split <;> simp_all [liveValues]
  | succ n ih =>
    obtain ⟨h1, h2, h3⟩ := it.nextEntry_spec content hv
    obtain ⟨e, es, hes⟩ := List.exists_cons_of_length_eq_add_one h
    rw [hes] at h1 h2
    rw [SortedRunIterator.next]
    split
    · rename_i it' heq
      rw [heq] at h1; cases h1
    · rename_i kv it' heq
      rw [heq] at h1 h2 h3
      simp only [List.head?_cons, Option.some.injEq] at h1
      subst h1
      simp only [List.tail_cons] at h2
      rw [hes, liveValues_cons]
      split_ifs with ht
      · rw [← h2]; exact ih it' h3 (by rw [h2]; simpa [hes] using h)
      · exact ⟨rfl, by rw [h2]; rfl, h3⟩

/-- `Next` hands out the remaining present values one by one, then reports the end. -/
theorem SortedRunIterator.next_drains (it : SortedRunIterator) (hv : it.Valid) :
    Drains (·.next (.ok ∘ content)) it ((liveValues (it.remaining content)).map some) none :=
  drains_of_head (fun s => liveValues (s.remaining content)) id (fun s hs => s.next_spec content hs) hv

variable {ssts : List Handle} {key : Bytes} {r : ℕ}

/-- Opened on a whole run, the iterator has all the run's entries to come. -/
lemma newSortedRunIter_all (ssts : List Handle) :
    ∃ it, newSortedRunIter (.ok ∘ content) ssts none = .ok it ∧ it.Valid ∧
      it.remaining content = runEntries content ssts := by
  cases ssts with
  | nil => exact ⟨_, rfl, fun _ => rfl, rfl⟩
  | cons s0 rest =>
    exact ⟨_, rfl, fun h => by simp at h, by simp [SortedRunIterator.remaining, runEntries, newIterator]⟩

/-- Opened at the key on the SSTs from the split point's floor, the iterator has the run's
entries at or above the key to come. -/
lemma newSortedRunIter_drop (hinv : RunInvariant content ssts)
    (hsplit : IsSplit (aboveKey (firstKeys ssts) key) ssts.length r) :
    ∃ it, newSortedRunIter (.ok ∘ content) (ssts.drop (r - 1)) (some key) = .ok it ∧ it.Valid ∧
      it.remaining content = entriesFrom key (runEntries content ssts) := by
  rw [entriesFrom_runEntries_drop hinv hsplit]
  cases hd : ssts.drop (r - 1) with
  | nil => exact ⟨_, rfl, fun _ => rfl, rfl⟩
  | cons s0 rest =>
    have hrest : ∀ b ∈ rest, key < b.info.firstKey := fun b hb =>
      firstKey_above_of_mem_drop hsplit (m := r - 1 + 1) (by omega) (by rw [← List.tail_drop, hd]; exact hb)
    have hw := hinv.wellFormed s0 (List.mem_of_mem_drop (hd ▸ List.mem_cons_self s0 rest))
    refine ⟨_, rfl, fun h => by simp at h, ?_⟩
    have hf : (runEntries content rest).filter (fun e => decide (key ≤ e.key)) = runEntries content rest := by
      refine List.filter_eq_self.mpr fun e he => ?_
      obtain ⟨b, hb, heb⟩ := List.mem_flatMap.mp he
      exact decide_eq_true ((hrest b hb).trans_le
        ((hinv.wellFormed b (List.mem_of_mem_drop (hd ▸ List.mem_cons_of_mem s0 hb))).firstKey_le heb)).le
    simp only [SortedRunIterator.remaining, newIteratorAtKey, Function.comp, except_map_ok,
      Option.getD_some, runEntries, List.flatMap_cons, entriesFrom, List.filter_append]
    rw [seekTo_eq_entriesFrom hw.ascending]
    exact congrArg _ hf.symm

/-- From a key, the compaction iterator starts with the run's entries at or above it to come. -/
lemma newSortedRunIteratorFromKey_remaining (sr : SortedRun) (key : Bytes) (hinv : RunInvariant content sr.sstList) :
    ∃ it, newSortedRunIteratorFromKey (.ok ∘ content) sr key = .ok it ∧ it.Valid ∧
      it.remaining content = entriesFrom key (runEntries content sr.sstList) := by
  obtain ⟨r, hsplit, hr⟩ := sr.indexOfSSTWithKey_split key
    (fun h hh => (hinv.wellFormed h hh).nonempty) hinv.firstKeys_sorted
  obtain ⟨it, hit, hv, hrem⟩ := newSortedRunIter_drop content hinv hsplit
  refine ⟨it, ?_, hv, hrem⟩
  simp only [newSortedRunIteratorFromKey, hr, except_ok_bind]
  rw [startList_eq, hit]

end Spec

section Failures

variable (read : Handle → Except Err (List RowEntry))

/-- What successive `NextEntry` calls hand out for one SST they reach: its entries, or one
report of the end when it fails to open. -/
def sstOutputs (sst : Handle) : List (Option RowEntry) :=
  match read sst with
  | .ok es => es.map some
  | .error _ => [none]

/-- The errors of the SSTs that fail to open, in order. -/
def openErrors (ssts : List Handle) : List Err :=
  ssts.filterMap fun sst =>
    match read sst with
    | .ok _ => none
    | .error e => some e

/-- What successive `NextEntry` calls hand out before the iterator is exhausted: the rest of
the current SST, then each SST not yet opened. -/
def SortedRunIterator.results (it : SortedRunIterator) : List (Option RowEntry) :=
  (it.currentKVIter.getD []).map some ++ it.sstListIter.flatMap (sstOutputs read)

/-- Nothing left to hand out means every SST left opens, with no entries. -/
lemma openErrors_eq_nil {it : SortedRunIterator} (h : it.results read = []) :
    openErrors read it.sstListIter = [] := by
  rw [SortedRunIterator.results, List.append_eq_nil, List.flatMap_eq_nil_iff] at h
  refine List.filterMap_eq_nil_iff.mpr fun sst hs => ?_
  have := h.2 sst hs
  unfold sstOutputs at this
  split at this <;> simp_all

/-- One `NextEntry` call, failed opens included: it hands out the next result and keeps the
warnings and the errors still to come together. -/
lemma nextEntryLoop_results (cur : Option SstableIterator) (ssts : List Handle) (warn : List Err)
    (hv : cur = none → ssts = []) :
    (nextEntryLoop read cur ssts warn).1 = (((⟨cur, ssts, warn⟩ : SortedRunIterator).results read).head?).getD none ∧
    (nextEntryLoop read cur ssts warn).2.results read = ((⟨cur, ssts, warn⟩ : SortedRunIterator).results read).tail ∧
    (nextEntryLoop read cur ssts warn).2.Valid ∧
    (nextEntryLoop read cur ssts warn).2.warn ++ openErrors read (nextEntryLoop read cur ssts warn).2.sstListIter =
      warn ++ openErrors read ssts := by
  induction ssts generalizing cur with
  | nil =>
    rcases cur with _ | _ | ⟨e, es⟩ <;>
      simp [nextEntryLoop, SortedRunIterator.results, SortedRunIterator.Valid, openErrors]
  | cons sst rest ih =>
    rcases cur with _ | _ | ⟨e, es⟩
    · simp at hv
    · cases hr : read sst with
      | ok es =>
        simpa [nextEntryLoop, newIterator, hr, SortedRunIterator.results, sstOutputs, openErrors]
          using ih (some es) (by simp)
      | error err =>
        simp [nextEntryLoop, newIterator, hr, SortedRunIterator.results, sstOutputs, openErrors,
          SortedRunIterator.Valid]
    · simp [nextEntryLoop, SortedRunIterator.results, SortedRunIterator.Valid]

lemma SortedRunIterator.nextEntry_results (it : SortedRunIterator) (hv : it.Valid) :
    (it.nextEntry read).1 = ((it.results read).head?).getD none ∧
    (it.nextEntry read).2.results read = (it.results read).tail ∧ (it.nextEntry read).2.Valid ∧
    (it.nextEntry read).2.warn ++ openErrors read (it.nextEntry read).2.sstListIter =
      it.warn ++ openErrors read it.sstListIter :=
  nextEntryLoop_results read it.currentKVIter it.sstListIter it.warn hv

/-- What successive `Next` calls hand out before the iterator is exhausted: the present
values, and one report of the end for each SST that fails to open. -/
def liveResults (rs : List (Option RowEntry)) : List (Option KeyValue) :=
  rs.filterMap fun
    | none => some none
    | some e => if e.value.isTombstone then none else some (some ⟨e.key, e.value.value⟩)

/-- One `Next` call, failed opens included. -/
lemma SortedRunIterator.next_results (it : SortedRunIterator) (hv : it.Valid) :
    (it.next read).1 = ((liveResults (it.results read)).head?).getD none ∧
    liveResults ((it.next read).2.results read) = (liveResults (it.results read)).tail ∧
    (it.next read).2.Valid ∧
    (it.next read).2.warn ++ openErrors read (it.next read).2.sstListIter =
      it.warn ++ openErrors read it.sstListIter := by
  obtain ⟨n, h⟩ : ∃ n, (it.results read).length = n := ⟨_, rfl⟩
  induction n generalizing it with
  | zero =>
    obtain ⟨h1, h2, h3, h4⟩ := it.nextEntry_results read hv
    rw [List.length_eq_zero] at h
    rw [h] at h1 h2
    rw [SortedRunIterator.next]
    split <;> simp_all [liveResults]
  | succ n ih =>
    obtain ⟨h1, h2, h3, h4⟩ := it.nextEntry_results read hv
    obtain ⟨x, xs, hxs⟩ := List.exists_cons_of_length_eq_add_one h
    rw [hxs] at h1 h2
    rw [SortedRunIterator.next]
    split
    · rename_i it' heq
      rw [heq] at h1 h2 h3 h4
      simp only [List.head?_cons, List.tail_cons, Option.getD_some] at h1 h2
      subst h1
      exact ⟨by simp [hxs, liveResults], by simp [hxs, liveResults, h2], h3, h4⟩
    · rename_i kv it' heq
      rw [heq] at h1 h2 h3 h4
      simp only [List.head?_cons, List.tail_cons, Option.getD_some] at h1 h2
      subst h1
      split_ifs with ht
      · obtain ⟨k1, k2, k3, k4⟩ := ih it' h3 (by rw [h2]; simpa [hxs] using h)
        rw [h2] at k1 k2
        exact ⟨by rw [k1, hxs]; simp [liveResults, ht], by rw [k2, hxs]; simp [liveResults, ht], k3,
          k4.trans h4⟩
      · exact ⟨by simp [hxs, liveResults, ht], by simp [hxs, liveResults, ht, h2], h3, h4⟩

/-- A step that hands out the head of an abstract list and leaves its tail has, after `n`
calls, dropped `n` items and kept its invariant. -/
lemma iterate_of_head {σ α β : Type} {step : σ → β × σ} (rest : σ → List α) (f : Option α → β)
    {inv : σ → Prop} (hstep : ∀ s, inv s → (step s).1 = f (rest s).head? ∧
      rest (step s).2 = (rest s).tail ∧ inv (step s).2)
    {s : σ} (hs : inv s) (n : ℕ) :
    inv ((Prod.snd ∘ step)^[n] s) ∧ rest ((Prod.snd ∘ step)^[n] s) = (rest s).drop n := by
  induction n generalizing s with
  | zero => exact ⟨hs, rfl⟩
  | succ n ih =>
    obtain ⟨-, h2, h3⟩ := hstep s hs
    obtain ⟨hinv, hrest⟩ := ih h3
    rw [Function.iterate_succ_apply, Function.comp_apply, hrest, h2, List.drop_tail]
    exact ⟨hinv, rfl⟩

/-- The iterator `NewSortedRunIterator` returns, with the results and the errors of the whole
run to come. -/
lemma newSortedRunIterator_results {sr : SortedRun} {it : SortedRunIterator}
    (hit : newSortedRunIterator read sr = .ok it) :
    (it.Valid ∧ it.warn ++ openErrors read it.sstListIter = openErrors read sr.sstList) ∧
      it.results read = sr.sstList.flatMap (sstOutputs read) := by
  obtain ⟨ssts, hl⟩ : ∃ l, sr.sstList = l := ⟨_, rfl⟩
  rw [hl]
  cases ssts with
  | nil =>
    simp only [newSortedRunIterator, newSortedRunIter, hl, except_pure, Except.ok.injEq] at hit
    subst hit
    exact ⟨⟨fun _ => rfl, rfl⟩, rfl⟩
  | cons sst rest =>
    cases hr : read sst with
    | error e => simp [newSortedRunIterator, newSortedRunIter, newIterator, hl, hr] at hit
    | ok es =>
      simp only [newSortedRunIterator, newSortedRunIter, newIterator, hl, hr, except_ok_bind,
        except_pure, Except.ok.injEq] at hit
      subst hit
      simp [SortedRunIterator.Valid, SortedRunIterator.results, openErrors, sstOutputs, hr]

/-- A failed open does not end the compaction iterator: it reports the end once, records the
error as a warning, and goes on with the next SST. -/
theorem newSortedRunIterator_skips_failed_opens (sr : SortedRun) :
    (∀ e, newSortedRunIterator read sr = .error e ↔ sr.sstList.head?.map read = some (.error e)) ∧
    ∀ it, newSortedRunIterator read sr = .ok it →
      Drains (·.nextEntry read) it (sr.sstList.flatMap (sstOutputs read)) none ∧
      Drains (·.next read) it (liveResults (sr.sstList.flatMap (sstOutputs read))) none ∧
      ∀ n, (sr.sstList.flatMap (sstOutputs read)).length ≤ n →
        ((Prod.snd ∘ (·.nextEntry read))^[n] it).warn = openErrors read sr.sstList := by
  refine ⟨fun e => ?_, fun it hit => ?_⟩
  · obtain ⟨ssts, hl⟩ : ∃ l, sr.sstList = l := ⟨_, rfl⟩
    cases ssts with
    | nil => simp [newSortedRunIterator, newSortedRunIter, hl]
    | cons sst rest =>
      cases hr : read sst <;> simp [newSortedRunIterator, newSortedRunIter, newIterator, hl, hr]
  obtain ⟨hinv, hres⟩ := newSortedRunIterator_results read hit
  let Inv (s : SortedRunIterator) : Prop :=
    s.Valid ∧ s.warn ++ openErrors read s.sstListIter = openErrors read sr.sstList
  have hstep : ∀ s, Inv s → (s.nextEntry read).1 = ((s.results read).head?).getD none ∧
      (s.nextEntry read).2.results read = (s.results read).tail ∧ Inv (s.nextEntry read).2 :=
    fun s ⟨hv, hw⟩ =>
      have h := s.nextEntry_results read hv
      ⟨h.1, h.2.1, h.2.2.1, h.2.2.2.trans hw⟩
  have hid : ∀ {γ : Type}, ((fun o : Option (Option γ) => o.getD none) ∘ some) = id := rfl
  refine ⟨?_, ?_, fun n hn => ?_⟩
  · have := drains_of_head (SortedRunIterator.results read) (·.getD none) hstep hinv
    rwa [hid, List.map_id, hres] at this
  · have hnext : ∀ s, Inv s → (s.next read).1 = ((liveResults (s.results read)).head?).getD none ∧
        liveResults ((s.next read).2.results read) = (liveResults (s.results read)).tail ∧
        Inv (s.next read).2 :=
      fun s ⟨hv, hw⟩ =>
        have h := s.next_results read hv
        ⟨h.1, h.2.1, h.2.2.1, h.2.2.2.trans hw⟩
    have := drains_of_head (fun s : SortedRunIterator => liveResults (s.results read)) (·.getD none) hnext hinv
    simpa only [hid, List.map_id, hres] using this
  · obtain ⟨⟨-, hw⟩, hrest⟩ := iterate_of_head (SortedRunIterator.results read) (·.getD none) hstep hinv n
    rw [hres, List.drop_eq_nil_of_le hn] at hrest
    rwa [openErrors_eq_nil read hrest, List.append_nil] at hw

/-- Three SSTs of which the middle one fails to open: the end is reported at it, and the next
call hands out the third SST's entry. -/
example :
    let sst : String → Handle := fun name => ⟨⟨.compacted, name⟩, ⟨[]⟩⟩
    let read : Handle → Except Err (List RowEntry) := fun h =>
      if h.id.value = "b" then .error .objectStore else .ok [⟨[h.id.value.length], ⟨[7], false⟩⟩]
    let it : SortedRunIterator := ⟨some [⟨[1], ⟨[7], false⟩⟩], [sst "b", sst "cc"], []⟩
    outputs (·.nextEntry read) 4 it =
      [some ⟨[1], ⟨[7], false⟩⟩, none, some ⟨[2], ⟨[7], false⟩⟩, none] ∧
      ((Prod.snd ∘ (·.nextEntry read))^[4] it).warn = [.objectStore] := by
  decide

end Failures


end Compaction

/-- Modelled from the spec: `SSTIterator` of the slatedb package (absent). It yields an SST's
entries in key order and fetches blocks as it goes, so a call may fail; it is held as the
entries still to come, or the error of its next fetch. -/
structure SSTIterator where
  rest : Except Err (List RowEntry)

/-- `SSTIterator.NextEntry`. -/
def SSTIterator.nextEntry (it : SSTIterator) : Except Err (Option RowEntry) × SSTIterator :=
  match it.rest with
  | .ok [] => (.ok none, it)
  | .ok (e :: es) => (.ok (some e), ⟨.ok es⟩)
  | .error err => (.error err, it)

section OldIterator

variable (read : Handle → Except Err (List RowEntry))

/-- `newSSTIterator`. -/
def newSSTIterator (sst : Handle) : SSTIterator := ⟨read sst⟩

/-- `newSSTIteratorFromKey`: seeks to `key`. -/
def newSSTIteratorFromKey (sst : Handle) (key : Bytes) : SSTIterator := ⟨seekTo key <$> read sst⟩

/-- `slatedb.SortedRunIterator`, its `SSTListIterator` held as the SSTs not yet handed out. -/
structure SortedRunIterator where
  currentKVIter : Option SSTIterator
  sstListIter : List Handle

/-- `newSortedRunIter` of the slatedb package. -/
def newSortedRunIter (sstList : List Handle) (fromKey : Option Bytes) : SortedRunIterator :=
  match sstList with
  | [] => ⟨none, []⟩
  | sst :: rest =>
    ⟨some (match fromKey with
      | some key => newSSTIteratorFromKey read sst key
      | none => newSSTIterator read sst), rest⟩

/-- `newSortedRunIterator` of the slatedb package. -/
def newSortedRunIterator (sortedRun : SortedRun) : SortedRunIterator :=
  newSortedRunIter read sortedRun.sstList none

/-- `newSortedRunIteratorFromKey` of the slatedb package, on the linear-scan lookup. -/
def newSortedRunIteratorFromKey (key : Bytes) (sortedRun : SortedRun) : SortedRunIterator :=
  let sstList := match sortedRun.indexOfSSTWithKey key with
    | some idx => sortedRun.sstList.drop idx
    | none => sortedRun.sstList
  newSortedRunIter read sstList (some key)

/-- The `for` loop of `SortedRunIterator.NextEntry` of the slatedb package: an error of the
current SST iterator is returned, and an exhausted one makes the loop open the next SST. -/
def nextEntryLoop : Option SSTIterator → List Handle → Except Err (Option RowEntry) × SortedRunIterator
  | none, ssts => (.ok none, ⟨none, ssts⟩)
  | some kvIter, ssts =>
    match kvIter.nextEntry with
    | (.error err, kvIter') => (.error err, ⟨some kvIter', ssts⟩)
    | (.ok (some kv), kvIter') => (.ok (some kv), ⟨some kvIter', ssts⟩)
    | (.ok none, kvIter') =>
      match ssts with
      | [] => (.ok none, ⟨some kvIter', []⟩)
      | sst :: rest => nextEntryLoop (some (newSSTIterator read sst)) rest

/-- `SortedRunIterator.NextEntry` of the slatedb package. -/
def SortedRunIterator.nextEntry (it : SortedRunIterator) :
    Except Err (Option RowEntry) × SortedRunIterator :=
  nextEntryLoop read it.currentKVIter it.sstListIter

/-- The number of entries the iterator can still hand out. -/
def SortedRunIterator.pending (it : SortedRunIterator) : ℕ :=
  (it.currentKVIter.map fun c => (c.rest.toOption.getD []).length).getD 0 +
    (it.sstListIter.map fun h => ((read h).toOption.getD []).length).sum

/-- Handing out the head of the current SST iterator lowers what is pending by one. -/
lemma pending_lt_of_cons (x : RowEntry) (xs : List RowEntry) (ssts : List Handle) :
    (SortedRunIterator.mk (some ⟨.ok xs⟩) ssts).pending read <
      (SortedRunIterator.mk (some ⟨.ok (x :: xs)⟩) ssts).pending read :=
  Nat.add_lt_add_right (Nat.lt_succ_self _) _

lemma nextEntryLoop_pending {cur : Option SSTIterator} {ssts : List Handle} {e : RowEntry}
    {it : SortedRunIterator} (h : nextEntryLoop read cur ssts = (.ok (some e), it)) :
    it.pending read < (SortedRunIterator.mk cur ssts).pending read := by
  induction ssts generalizing cur with
  | nil =>
    rcases cur with _ | ⟨_ | _ | ⟨x, xs⟩⟩ <;> cases h
    exact pending_lt_of_cons read _ xs []
  | cons sst rest ih =>
    rcases cur with _ | ⟨_ | _ | ⟨x, xs⟩⟩
    · cases h
    · cases h
    · have := ih h
      simp only [SortedRunIterator.pending, newSSTIterator, Option.map_some', Option.getD_some,
        List.map_cons, List.sum_cons, Except.toOption] at this ⊢
      omega
    · cases h
      exact pending_lt_of_cons read _ xs _

/-- `SortedRunIterator.Next` of the slatedb package: `NextEntry` until an entry that is not a
tombstone, returning the first error. -/
def SortedRunIterator.next (it : SortedRunIterator) : Except Err (Option KeyValue) × SortedRunIterator :=
  match h : it.nextEntry read with
  | (.error err, it') => (.error err, it')
  | (.ok none, it') => (.ok none, it')
  | (.ok (some kv), it') =>
    have := nextEntryLoop_pending read h
    if kv.value.isTombstone then it'.next else (.ok (some ⟨kv.key, kv.value.value⟩), it')
termination_by it.pending read
decreasing_by exact this

end OldIterator

section OldSpec

variable (content : Handle → List RowEntry)

/-- The entries still to come of an SST iterator. -/
def SSTIterator.entries (c : SSTIterator) : List RowEntry := c.rest.toOption.getD []

/-- The entries still to come when every read succeeds. -/
def SortedRunIterator.remaining (it : SortedRunIterator) : List RowEntry :=
  (it.currentKVIter.map SSTIterator.entries).getD [] ++ runEntries content it.sstListIter

/-- The iterator's shape when every read succeeds: its SST iterator has not failed, and
without one no SST is left. -/
def SortedRunIterator.Valid (it : SortedRunIterator) : Prop :=
  (it.currentKVIter = none → it.sstListIter = []) ∧ ∀ c ∈ it.currentKVIter, ∃ es, c.rest = .ok es

lemma nextEntryLoop_spec_ok (cur : Option SSTIterator) (ssts : List Handle)
    (hv : (SortedRunIterator.mk cur ssts).Valid) :
    (nextEntryLoop (.ok ∘ content) cur ssts).1 =
      .ok ((SortedRunIterator.mk cur ssts).remaining content).head? ∧
    (nextEntryLoop (.ok ∘ content) cur ssts).2.remaining content =
      ((SortedRunIterator.mk cur ssts).remaining content).tail ∧
    (nextEntryLoop (.ok ∘ content) cur ssts).2.Valid := by
  obtain ⟨hnone, hok⟩ := hv
  induction ssts generalizing cur with
  | nil =>
    rcases cur with _ | ⟨⟨c⟩⟩
    · exact ⟨rfl, rfl, fun _ => rfl, fun _ h => nomatch h⟩
    · obtain ⟨es, rfl⟩ := hok _ rfl
      cases es <;> simp [nextEntryLoop, SSTIterator.nextEntry, SortedRunIterator.remaining,
        SortedRunIterator.Valid, SSTIterator.entries, runEntries, Except.toOption, -IsEmpty.exists_iff]
  | cons sst rest ih =>
    rcases cur with _ | ⟨⟨c⟩⟩
    · simp at hnone
    · obtain ⟨es, rfl⟩ := hok _ rfl
      cases es with
      | nil =>
        have hstep : nextEntryLoop (.ok ∘ content) (some ⟨.ok []⟩) (sst :: rest) =
            nextEntryLoop (.ok ∘ content) (some (newSSTIterator (.ok ∘ content) sst)) rest := rfl
        have hrem : (SortedRunIterator.mk (some ⟨.ok []⟩) (sst :: rest)).remaining content =
            (SortedRunIterator.mk (some (newSSTIterator (.ok ∘ content) sst)) rest).remaining content := by
          simp [SortedRunIterator.remaining, SSTIterator.entries, newSSTIterator, runEntries, Except.toOption]
        rw [hstep, hrem]
        exact ih (some (newSSTIterator (.ok ∘ content) sst)) (fun h => nomatch h)
          fun _ hc => by obtain rfl := Option.mem_some_iff.mp hc; exact ⟨_, rfl⟩
      | cons e es =>
        simp [nextEntryLoop, SSTIterator.nextEntry, SortedRunIterator.remaining, SortedRunIterator.Valid,
          SSTIterator.entries, runEntries, Except.toOption, -IsEmpty.exists_iff]

lemma SortedRunIterator.nextEntry_spec_ok (it : SortedRunIterator) (hv : it.Valid) :
    (it.nextEntry (.ok ∘ content)).1 = .ok (it.remaining content).head? ∧
    (it.nextEntry (.ok ∘ content)).2.remaining content = (it.remaining content).tail ∧
    (it.nextEntry (.ok ∘ content)).2.Valid :=
  nextEntryLoop_spec_ok content it.currentKVIter it.sstListIter hv

lemma SortedRunIterator.next_spec_ok (it : SortedRunIterator) (hv : it.Valid) :
    (it.next (.ok ∘ content)).1 = .ok (liveValues (it.remaining content)).head? ∧
    liveValues ((it.next (.ok ∘ content)).2.remaining content) =
      (liveValues (it.remaining content)).tail ∧
    (it.next (.ok ∘ content)).2.Valid := by
  obtain ⟨n, h⟩ : ∃ n, (it.remaining content).length = n := ⟨_, rfl⟩
  induction n generalizing it with
  | zero =>
    obtain ⟨h1, h2, h3⟩ := it.nextEntry_spec_ok content hv
    rw [List.length_eq_zero] at h
    rw [h] at h1 h2
    rw [SortedRunIterator.next]
    split <;> simp_all [liveValues]
  | succ n ih =>
    obtain ⟨h1, h2, h3⟩ := it.nextEntry_spec_ok content hv
    obtain ⟨e, es, hes⟩ := List.exists_cons_of_length_eq_add_one h
    rw [hes] at h1 h2
    rw [SortedRunIterator.next]
    split
    · rename_i err it' heq
      rw [heq] at h1; cases h1
    · rename_i it' heq
      rw [heq] at h1; cases h1
    · rename_i kv it' heq
      rw [heq] at h1 h2 h3
      simp only [List.head?_cons, Except.ok.injEq, Option.some.injEq] at h1
      subst h1
      simp only [List.tail_cons] at h2
      rw [hes, liveValues_cons]
      split_ifs with ht
      · rw [← h2]; exact ih it' h3 (by rw [h2]; simpa [hes] using h)
      · exact ⟨rfl, by rw [h2]; rfl, h3⟩

lemma newSortedRunIter_all_ok (ssts : List Handle) :
    (newSortedRunIter (.ok ∘ content) ssts none).Valid ∧
      (newSortedRunIter (.ok ∘ content) ssts none).remaining content = runEntries content ssts := by
  cases ssts <;> simp [newSortedRunIter, SortedRunIterator.Valid, SortedRunIterator.remaining,
    newSSTIterator, SSTIterator.entries, runEntries, Except.toOption]

lemma newSortedRunIter_drop_ok {ssts : List Handle} {key : Bytes} {r : ℕ}
    (hinv : RunInvariant content ssts) (hsplit : IsSplit (aboveKey (firstKeys ssts) key) ssts.length r) :
    (newSortedRunIter (.ok ∘ content) (ssts.drop (r - 1)) (some key)).Valid ∧
      (newSortedRunIter (.ok ∘ content) (ssts.drop (r - 1)) (some key)).remaining content =
        entriesFrom key (runEntries content ssts) := by
  obtain ⟨it, hit, hv, hrem⟩ := Compaction.newSortedRunIter_drop content hinv hsplit
  cases hd : ssts.drop (r - 1) with
  | nil =>
    rw [hd] at hit; cases hit
    exact ⟨⟨fun _ => rfl, by simp [newSortedRunIter]⟩, by simpa [newSortedRunIter] using hrem⟩
  | cons s0 rest =>
    rw [hd] at hit; cases hit
    refine ⟨⟨fun h => by simp [newSortedRunIter] at h, by simp [newSortedRunIter, newSSTIteratorFromKey]⟩, ?_⟩
    simpa [newSortedRunIter, SortedRunIterator.remaining, Compaction.SortedRunIterator.remaining,
      newSSTIteratorFromKey, SSTIterator.entries, Compaction.newIteratorAtKey, Except.toOption] using hrem

end OldSpec

section OldFailures

variable (read : Handle → Except Err (List RowEntry))

/-- The entries of a sequence of SST reads, in order, up to the first read that fails, and the
error of that read. -/
def untilError : List (Except Err (List RowEntry)) → List RowEntry × Option Err
  | [] => ([], none)
  | .error e :: _ => ([], some e)
  | .ok es :: rest => (es ++ (untilError rest).1, (untilError rest).2)

/-- What a call returns once no entry is left before the failure: its error, or the end. -/
def endOf {α : Type} : Option Err → Except Err (Option α)
  | some e => .error e
  | none => .ok none

/-- The reads still ahead of the iterator: its SST iterator's, then those of the SSTs it has
not opened. -/
def SortedRunIterator.reads (it : SortedRunIterator) : List (Except Err (List RowEntry)) :=
  (it.currentKVIter.map (·.rest)).toList ++ it.sstListIter.map read

/-- Without an SST iterator, no SST is left. -/
def SortedRunIterator.Started (it : SortedRunIterator) : Prop :=
  it.currentKVIter = none → it.sstListIter = []

/-- The entries ahead of the iterator before its first failed read. -/
def SortedRunIterator.beforeError (it : SortedRunIterator) : List RowEntry :=
  (untilError (it.reads read)).1

/-- The error of the first failed read ahead of the iterator. -/
def SortedRunIterator.firstError (it : SortedRunIterator) : Option Err :=
  (untilError (it.reads read)).2

/-- One `NextEntry` call, failed reads included: it hands out the next entry before the first
failure, or reports that failure, and stays at it. -/
lemma nextEntryLoop_untilError (cur : Option SSTIterator) (ssts : List Handle)
    (hv : cur = none → ssts = []) :
    (nextEntryLoop read cur ssts).1 = (((SortedRunIterator.mk cur ssts).beforeError read).head?.map
      (.ok ∘ some)).getD (endOf ((SortedRunIterator.mk cur ssts).firstError read)) ∧
    (nextEntryLoop read cur ssts).2.beforeError read =
      ((SortedRunIterator.mk cur ssts).beforeError read).tail ∧
    (nextEntryLoop read cur ssts).2.firstError read = (SortedRunIterator.mk cur ssts).firstError read ∧
    (nextEntryLoop read cur ssts).2.Started := by
  induction ssts generalizing cur with
  | nil =>
    rcases cur with _ | ⟨_ | _ | ⟨x, xs⟩⟩ <;>
      simp [nextEntryLoop, SSTIterator.nextEntry, SortedRunIterator.beforeError,
        SortedRunIterator.firstError, SortedRunIterator.reads, SortedRunIterator.Started, untilError, endOf]
  | cons sst rest ih =>
    rcases cur with _ | ⟨_ | _ | ⟨x, xs⟩⟩
    · simp at hv
    · simp [nextEntryLoop, SSTIterator.nextEntry, SortedRunIterator.beforeError,
        SortedRunIterator.firstError, SortedRunIterator.reads, SortedRunIterator.Started, untilError, endOf]
    · have hreads : untilError ((SortedRunIterator.mk (some ⟨.ok []⟩) (sst :: rest)).reads read) =
          untilError ((SortedRunIterator.mk (some (newSSTIterator read sst)) rest).reads read) := by
        simp [SortedRunIterator.reads, newSSTIterator, untilError]
      have := ih (some (newSSTIterator read sst)) (fun h => nomatch h)
      rwa [SortedRunIterator.beforeError, SortedRunIterator.firstError, ← hreads] at this
    · simp [nextEntryLoop, SSTIterator.nextEntry, SortedRunIterator.beforeError,
        SortedRunIterator.firstError, SortedRunIterator.reads, SortedRunIterator.Started, untilError]

lemma SortedRunIterator.nextEntry_untilError (it : SortedRunIterator) (hv : it.Started) :
    (it.nextEntry read).1 = ((it.beforeError read).head?.map (.ok ∘ some)).getD
      (endOf (it.firstError read)) ∧
    (it.nextEntry read).2.beforeError read = (it.beforeError read).tail ∧
    (it.nextEntry read).2.firstError read = it.firstError read ∧ (it.nextEntry read).2.Started :=
  nextEntryLoop_untilError read it.currentKVIter it.sstListIter hv

/-- One `Next` call, failed reads included: it hands out the next present value before the
first failure, or reports that failure. -/
lemma SortedRunIterator.next_untilError (it : SortedRunIterator) (hv : it.Started) :
    (it.next read).1 = ((liveValues (it.beforeError read)).head?.map (.ok ∘ some)).getD
      (endOf (it.firstError read)) ∧
    liveValues ((it.next read).2.beforeError read) = (liveValues (it.beforeError read)).tail ∧
    (it.next read).2.firstError read = it.firstError read ∧ (it.next read).2.Started := by
  obtain ⟨n, h⟩ : ∃ n, (it.beforeError read).length = n := ⟨_, rfl⟩
  induction n generalizing it with
  | zero =>
    obtain ⟨h1, h2, h3, h4⟩ := it.nextEntry_untilError read hv
    rw [List.length_eq_zero] at h
    rw [h] at h1 h2
    rw [SortedRunIterator.next]
    cases hf : it.firstError read <;> rw [hf] at h1 h3 <;> split <;> rename_i heq <;>
      rw [heq] at h1 h2 h3 h4 <;> simp_all [liveValues, endOf]
  | succ n ih =>
    obtain ⟨h1, h2, h3, h4⟩ := it.nextEntry_untilError read hv
    obtain ⟨e, es, hes⟩ := List.exists_cons_of_length_eq_add_one h
    rw [hes] at h1 h2
    rw [SortedRunIterator.next]
    split
    · rename_i err it' heq
      rw [heq] at h1; cases h1
    · rename_i it' heq
      rw [heq] at h1; cases h1
    · rename_i kv it' heq
      rw [heq] at h1 h2 h3 h4
      cases h1
      rw [List.tail_cons] at h2
      rw [hes, liveValues_cons]
      split_ifs with ht
      · obtain ⟨k1, k2, k3, k4⟩ := ih it' h4 (by rw [h2]; simpa [hes] using h)
        rw [h2, h3] at k1
        rw [h2] at k2
        exact ⟨k1, k2, k3.trans h3, k4⟩
      · exact ⟨rfl, by rw [h2]; rfl, h3, h4⟩

/-- A failed read stops the older package's iterator for good: every later call returns that
error, and no later SST is opened. -/
theorem newSortedRunIterator_stops_at_failed_read (sr : SortedRun) :
    Drains (·.nextEntry read) (newSortedRunIterator read sr)
      ((untilError (sr.sstList.map read)).1.map (.ok ∘ some)) (endOf (untilError (sr.sstList.map read)).2) ∧
    Drains (·.next read) (newSortedRunIterator read sr)
      ((liveValues (untilError (sr.sstList.map read)).1).map (.ok ∘ some))
      (endOf (untilError (sr.sstList.map read)).2) := by
  have hstart : (newSortedRunIterator read sr).Started ∧
      (newSortedRunIterator read sr).reads read = sr.sstList.map read := by
    obtain ⟨id, ssts⟩ := sr
    cases ssts <;> simp [newSortedRunIterator, newSortedRunIter, newSSTIterator,
      SortedRunIterator.Started, SortedRunIterator.reads]
  set e₀ := (untilError (sr.sstList.map read)).2
  let Inv (s : SortedRunIterator) : Prop := s.Started ∧ s.firstError read = e₀
  have hinv : Inv (newSortedRunIterator read sr) :=
    ⟨hstart.1, by rw [SortedRunIterator.firstError, hstart.2]⟩
  have hbefore : (newSortedRunIterator read sr).beforeError read = (untilError (sr.sstList.map read)).1 := by
    rw [SortedRunIterator.beforeError, hstart.2]
  rw [← hbefore]
  constructor
  · exact drains_of_head (·.beforeError read) (fun o => (o.map (.ok ∘ some)).getD (endOf e₀))
      (fun s ⟨hv, he⟩ => by
        obtain ⟨h1, h2, h3, h4⟩ := s.nextEntry_untilError read hv
        exact ⟨by rw [← he]; exact h1, h2, h4, h3.trans he⟩) hinv
  · exact drains_of_head (fun s => liveValues (s.beforeError read))
      (fun o => (o.map (.ok ∘ some)).getD (endOf e₀))
      (fun s ⟨hv, he⟩ => by
        obtain ⟨h1, h2, h3, h4⟩ := s.next_untilError read hv
        exact ⟨by rw [← he]; exact h1, h2, h4, h3.trans he⟩) hinv

/-- The three SSTs of the compaction example, the middle one failing: the third SST's entry is
never handed out. -/
example :
    let sst : String → Handle := fun name => ⟨⟨.compacted, name⟩, ⟨[]⟩⟩
    let read : Handle → Except Err (List RowEntry) := fun h =>
      if h.id.value = "b" then .error .objectStore else .ok [⟨[h.id.value.length], ⟨[7], false⟩⟩]
    (outputs (·.nextEntry read) 3 (newSortedRunIterator read ⟨0, [sst "a", sst "b", sst "cc"]⟩)).map
      Except.toOption = [some (some ⟨[1], ⟨[7], false⟩⟩), none, none] := by
  decide

end OldFailures

/-- On a well-formed run whose SSTs open, both packages' iterators hand out the run's entries at or
above the key, in ascending order, and `Next` the same without tombstones. -/
theorem sortedRunIterator_law (content : Handle → List RowEntry) (id : ℕ) (ssts : List Handle)
    (key : Bytes) (hinv : RunInvariant content ssts) :
    KeysAscending (runEntries content ssts) ∧
    (∃ it, Compaction.newSortedRunIteratorFromKey (.ok ∘ content) ⟨id, ssts⟩ key = .ok it ∧
      Drains (·.nextEntry (.ok ∘ content)) it ((entriesFrom key (runEntries content ssts)).map some) none ∧
      Drains (·.next (.ok ∘ content)) it
        ((liveValues (entriesFrom key (runEntries content ssts))).map some) none) ∧
    (∃ it, Compaction.newSortedRunIterator (.ok ∘ content) ⟨id, ssts⟩ = .ok it ∧
      Drains (·.nextEntry (.ok ∘ content)) it ((runEntries content ssts).map some) none ∧
      Drains (·.next (.ok ∘ content)) it ((liveValues (runEntries content ssts)).map some) none) ∧
    Drains (·.nextEntry (.ok ∘ content)) (newSortedRunIteratorFromKey (.ok ∘ content) key ⟨id, ssts⟩)
      ((entriesFrom key (runEntries content ssts)).map fun e => .ok (some e)) (.ok none) ∧
    Drains (·.next (.ok ∘ content)) (newSortedRunIteratorFromKey (.ok ∘ content) key ⟨id, ssts⟩)
      ((liveValues (entriesFrom key (runEntries content ssts))).map fun e => .ok (some e)) (.ok none) ∧
    Drains (·.nextEntry (.ok ∘ content)) (newSortedRunIterator (.ok ∘ content) ⟨id, ssts⟩)
      ((runEntries content ssts).map fun e => .ok (some e)) (.ok none) ∧
    Drains (·.next (.ok ∘ content)) (newSortedRunIterator (.ok ∘ content) ⟨id, ssts⟩)
      ((liveValues (runEntries content ssts)).map fun e => .ok (some e)) (.ok none) := by
  have hne : ∀ h ∈ ssts, h.info.firstKey ≠ [] := fun h hh => (hinv.wellFormed h hh).nonempty
  -- the compaction package
  obtain ⟨itk, hitk, hvk, hremk⟩ :=
    Compaction.newSortedRunIteratorFromKey_remaining content ⟨id, ssts⟩ key hinv
  obtain ⟨ita, hita, hva, hrema⟩ := Compaction.newSortedRunIter_all content ssts
  have drains_entry (it : Compaction.SortedRunIterator) (hv : it.Valid) := it.nextEntry_drains content hv
  have drains_next (it : Compaction.SortedRunIterator) (hv : it.Valid) := it.next_drains content hv
  -- the slatedb package, from the split point of its linear scan
  obtain ⟨r, hsplit, hr⟩ := SortedRun.indexOfSSTWithKey_split ⟨id, ssts⟩ key hinv.firstKeys_sorted
  have hold := newSortedRunIter_drop_ok content hinv hsplit
  have hall := newSortedRunIter_all_ok content ssts
  have hfromKey : newSortedRunIteratorFromKey (.ok ∘ content) key ⟨id, ssts⟩ =
      newSortedRunIter (.ok ∘ content) (ssts.drop (r - 1)) (some key) := by
    simp only [newSortedRunIteratorFromKey, hr]; rw [startList_eq]
  have old_entry (it : SortedRunIterator) (hv : it.Valid) :=
    drains_of_head (·.remaining content) (fun o => Except.ok o) (fun s hs => s.nextEntry_spec_ok content hs) hv
  have old_next (it : SortedRunIterator) (hv : it.Valid) :=
    drains_of_head (fun s => liveValues (s.remaining content)) (fun o => Except.ok o)
      (fun s hs => s.next_spec_ok content hs) hv
  refine ⟨hinv.runEntries_ascending, ⟨itk, hitk, ?_, ?_⟩, ⟨ita, hita, ?_, ?_⟩, ?_, ?_, ?_, ?_⟩
  · simpa [hremk] using drains_entry itk hvk
  · simpa [hremk] using drains_next itk hvk
  · simpa [hrema] using drains_entry ita hva
  · simpa [hrema] using drains_next ita hva
  · rw [hfromKey, ← hold.2]; exact old_entry _ hold.1
  · rw [hfromKey, ← hold.2]; exact old_next _ hold.1
  · rw [newSortedRunIterator, ← hall.2]; exact old_entry _ hall.1
  · rw [newSortedRunIterator, ← hall.2]; exact old_next _ hall.1

/-- The contents of `twoSSTRun`: SST `a` holds a value at `[1]` and a tombstone at `[2]`, SST
`b` an empty value at `[3]`. -/
def twoSSTContent (h : Handle) : List RowEntry :=
  if h.id.value = "a" then [⟨[1], ⟨[7], false⟩⟩, ⟨[2], ⟨[], true⟩⟩] else [⟨[3], ⟨[], false⟩⟩]

theorem sortedRunIterator_law_two_ssts :
    RunInvariant twoSSTContent Compaction.twoSSTRun.sstList ∧
    KeysAscending (runEntries twoSSTContent Compaction.twoSSTRun.sstList) ∧
    (∃ it, Compaction.newSortedRunIteratorFromKey (.ok ∘ twoSSTContent) ⟨0, Compaction.twoSSTRun.sstList⟩ [2] = .ok it ∧
      Drains (·.nextEntry (.ok ∘ twoSSTContent)) it
        ((entriesFrom [2] (runEntries twoSSTContent Compaction.twoSSTRun.sstList)).map some) none ∧
      Drains (·.next (.ok ∘ twoSSTContent)) it
        ((liveValues (entriesFrom [2] (runEntries twoSSTContent Compaction.twoSSTRun.sstList))).map some) none) ∧
    (∃ it, Compaction.newSortedRunIterator (.ok ∘ twoSSTContent) ⟨0, Compaction.twoSSTRun.sstList⟩ = .ok it ∧
      Drains (·.nextEntry (.ok ∘ twoSSTContent)) it
        ((runEntries twoSSTContent Compaction.twoSSTRun.sstList).map some) none ∧
      Drains (·.next (.ok ∘ twoSSTContent)) it
        ((liveValues (runEntries twoSSTContent Compaction.twoSSTRun.sstList)).map some) none) ∧
    Drains (·.nextEntry (.ok ∘ twoSSTContent))
      (newSortedRunIteratorFromKey (.ok ∘ twoSSTContent) [2] ⟨0, Compaction.twoSSTRun.sstList⟩)
      ((entriesFrom [2] (runEntries twoSSTContent Compaction.twoSSTRun.sstList)).map fun e => .ok (some e))
      (.ok none) ∧
    Drains (·.next (.ok ∘ twoSSTContent))
      (newSortedRunIteratorFromKey (.ok ∘ twoSSTContent) [2] ⟨0, Compaction.twoSSTRun.sstList⟩)
      ((liveValues (entriesFrom [2] (runEntries twoSSTContent Compaction.twoSSTRun.sstList))).map
        fun e => .ok (some e)) (.ok none) ∧
    Drains (·.nextEntry (.ok ∘ twoSSTContent))
      (newSortedRunIterator (.ok ∘ twoSSTContent) ⟨0, Compaction.twoSSTRun.sstList⟩)
      ((runEntries twoSSTContent Compaction.twoSSTRun.sstList).map fun e => .ok (some e)) (.ok none) ∧
    Drains (·.next (.ok ∘ twoSSTContent))
      (newSortedRunIterator (.ok ∘ twoSSTContent) ⟨0, Compaction.twoSSTRun.sstList⟩)
      ((liveValues (runEntries twoSSTContent Compaction.twoSSTRun.sstList)).map fun e => .ok (some e))
      (.ok none) :=
  ⟨by decide, sortedRunIterator_law twoSSTContent 0 _ [2] (by decide)⟩

end SlateDB
