import SlateDB.TableStore

/-! # The filter cache of the table store

`WriteSST` and an `EncodedSSTableWriter`'s `Close` cache the filter of the SST they upload, and
`ReadFilter` answers from the cache or reads the filter out of the object; the calls interleave
and the cache evicts at will. `readFilter` stands for the absent `sstFormat.ReadFilter`. -/
namespace SlateDB

/-- Where a `ReadFilter(sstHandle)` call stands. -/
inductive ReadFilterPc
  /-- Not running. -/
  | idle
  /-- At `filterCache.Get(sstHandle.Id)`. -/
  | get (id : ID)
  /-- After a miss, at `sstFormat.ReadFilter` on the SST's object. -/
  | read (id : ID)
  /-- At `cacheFilter(sstHandle.Id, filtr)`, with the filter it read. -/
  | cache (id : ID) (filter : Option Bytes)
  deriving DecidableEq

/-- Where a `WriteSST(id, encodedSST)` call stands. -/
inductive WriteSSTPc
  /-- Not running. -/
  | idle
  /-- At `bucket.Upload` of the table. -/
  | upload (id : ID) (encodedSST : EncodedTable)
  /-- At `cacheFilter(id, encodedSST.Bloom)`, after the upload succeeded. -/
  | cache (id : ID) (filter : Option Bytes)
  deriving DecidableEq

/-- The bucket's objects and the filter cache, each newest first so that a lookup finds the
last upload or `Set`; each call's place; and ghost records of the tables written and of the
filters `ReadFilter` returned, with their ids. -/
structure FilterCacheMachine where
  objects : List (String × Bytes)
  filterCache : List (ID × Option Bytes)
  readers : List ReadFilterPc
  writers : List WriteSSTPc
  written : List EncodedTable
  returned : List (ID × Option Bytes)
  deriving DecidableEq

/-- What can happen next. -/
inductive FilterCacheEvent
  /-- Reader `t` calls `ReadFilter` on a handle of SST `id`. -/
  | readFilter (t : ℕ) (id : ID)
  /-- The next step of reader `t`. -/
  | reader (t : ℕ)
  /-- Writer `t` calls `WriteSST(id, encodedSST)`. -/
  | writeSST (t : ℕ) (id : ID) (encodedSST : EncodedTable)
  /-- The next step of writer `t`: its upload succeeds when `ok`, and a failed upload still
  lands when `landed`. -/
  | writer (t : ℕ) (ok landed : Bool)
  /-- The cache evicts the entry of `id`. -/
  | evict (id : ID)
  deriving DecidableEq

namespace FilterCacheMachine

variable (ts : TableStore) (readFilter : Bytes → Except Err (Option Bytes))

/-- `cacheFilter(sstID, filter)`: `filterCache.Set` under the lock. -/
def cacheFilter (m : FilterCacheMachine) (id : ID) (filter : Option Bytes) :
    FilterCacheMachine :=
  { m with filterCache := (id, filter) :: m.filterCache }

/-- One step of the `ReadFilter` call at `pc`: its next place and the machine after it. A
missing object or a filter that does not decode ends the call with an error. -/
def readerStep (m : FilterCacheMachine) : ReadFilterPc → ReadFilterPc × FilterCacheMachine
  | .idle => (.idle, m)
  | .get id =>
    match m.filterCache.lookup id with
    | some filter => (.idle, { m with returned := m.returned ++ [(id, filter)] })
    | none => (.read id, m)
  | .read id =>
    match (m.objects.lookup (ts.sstPath id)).map readFilter with
    | some (.ok filter) => (.cache id filter, m)
    | _ => (.idle, m)
  | .cache id filter =>
    (.idle, { m.cacheFilter id filter with returned := m.returned ++ [(id, filter)] })

/-- The bucket's `Upload`, which succeeds when `ok`. -/
def upload (ok : Bool) : String → Bytes → Except Err Unit :=
  fun _ _ => if ok then .ok () else .error (.other "upload failed")

/-- One step of the `WriteSST` call at `pc`. -/
def writerStep (ok landed : Bool) (m : FilterCacheMachine) :
    WriteSSTPc → WriteSSTPc × FilterCacheMachine
  | .idle => (.idle, m)
  | .upload id encodedSST =>
    match ts.writeSST (upload ok) id encodedSST with
    | .ok (w, _) => (.cache id w.filter, { m with objects := (w.path, w.data) :: m.objects })
    | .error _ =>
      (.idle, if landed then
        { m with objects := (ts.sstPath id, encodedSST.blocks.foldl (· ++ ·) []) :: m.objects }
      else m)
  | .cache id filter => (.idle, m.cacheFilter id filter)

/-- One event, when it can happen. -/
def step (m : FilterCacheMachine) : FilterCacheEvent → Option FilterCacheMachine
  | .readFilter t id =>
    if m.readers[t]? = some .idle then some { m with readers := m.readers.set t (.get id) }
    else none
  | .reader t =>
    m.readers[t]?.map fun pc =>
      let r := readerStep ts readFilter m pc
      { r.2 with readers := m.readers.set t r.1 }
  | .writeSST t id encodedSST =>
    if m.writers[t]? = some .idle then
      some { m with
        writers := m.writers.set t (.upload id encodedSST)
        written := m.written ++ [encodedSST] }
    else none
  | .writer t ok landed =>
    m.writers[t]?.map fun pc =>
      let r := writerStep ts ok landed m pc
      { r.2 with writers := m.writers.set t r.1 }
  | .evict id => some { m with filterCache := m.filterCache.filter (·.1 != id) }

/-- An empty bucket and cache, with the given numbers of readers and writers, all idle. -/
def init (readers writers : ℕ) : FilterCacheMachine :=
  ⟨[], [], List.replicate readers .idle, List.replicate writers .idle, [], []⟩

/-- The machines reachable from `start` by any interleaving of events. -/
inductive Reachable (start : FilterCacheMachine) : FilterCacheMachine → Prop
  | init : Reachable start start
  | step {m m' : FilterCacheMachine} (ev : FilterCacheEvent) :
      Reachable start m → step ts readFilter m ev = some m' → Reachable start m'

/-- A trace of events replayed from `m`. -/
def run : FilterCacheMachine → List FilterCacheEvent → Option FilterCacheMachine
  | m, [] => some m
  | m, ev :: evs => (step ts readFilter m ev).bind (run · evs)

variable {ts readFilter}

lemma reachable_of_run {start m m' : FilterCacheMachine} {evs : List FilterCacheEvent}
    (hm : Reachable ts readFilter start m) (h : run ts readFilter m evs = some m') :
    Reachable ts readFilter start m' := by
  induction evs generalizing m with
  | nil => cases h; exact hm
  | cons ev evs ih =>
    simp only [run, Option.bind_eq_some] at h
    obtain ⟨m₁, h₁, h₂⟩ := h
    exact ih (.step ev hm h₁) h₂

/-- A property that a trace from `start` ends in holds of some reachable machine. -/
lemma exists_reachable_of_run {start : FilterCacheMachine} {evs : List FilterCacheEvent}
    {p : FilterCacheMachine → Prop} [DecidablePred p]
    (h : (run ts readFilter start evs).map (fun m => decide (p m)) = some true) :
    ∃ m, Reachable ts readFilter start m ∧ p m := by
  cases hr : run ts readFilter start evs with
  | none => simp [hr] at h
  | some m =>
    simp only [hr, Option.map_some', Option.some.injEq, decide_eq_true_eq] at h
    exact ⟨m, reachable_of_run .init hr, h⟩

section Coherence

variable (ts readFilter)

/-- Reading SST `id`'s object out of the bucket gives the filter `filter`. -/
def InBucket (m : FilterCacheMachine) (id : ID) (filter : Option Bytes) : Prop :=
  ∃ data, m.objects.lookup (ts.sstPath id) = some data ∧ readFilter data = .ok filter

/-- Every table written carries the filter that the format reads back from its bytes. -/
def FiltersReadBack (m : FilterCacheMachine) : Prop :=
  ∀ t ∈ m.written, readFilter (t.blocks.foldl (· ++ ·) []) = .ok t.bloom

/-- What the `ReadFilter` call at `pc` relies on: the filter it is about to cache is the
one in the bucket. -/
def ReadFilterPc.Holds (m : FilterCacheMachine) : ReadFilterPc → Prop
  | .cache id filter => InBucket ts readFilter m id filter
  | _ => True

/-- What the `WriteSST` call at `pc` relies on: its table is recorded as written, and once
uploaded its filter is the one in the bucket. -/
def WriteSSTPc.Holds (m : FilterCacheMachine) : WriteSSTPc → Prop
  | .idle => True
  | .upload _ encodedSST => encodedSST ∈ m.written
  | .cache id filter => InBucket ts readFilter m id filter

/-- The cache agrees with the bucket: every cached filter, every filter returned and every
filter a call is about to cache is the one in the SST's object. -/
structure CacheCoherent (m : FilterCacheMachine) : Prop where
  cached : ∀ id filter, m.filterCache.lookup id = some filter → InBucket ts readFilter m id filter
  returned : ∀ r ∈ m.returned, InBucket ts readFilter m r.1 r.2
  readers : ∀ pc ∈ m.readers, ReadFilterPc.Holds ts readFilter m pc
  writers : ∀ pc ∈ m.writers, WriteSSTPc.Holds ts readFilter m pc

end Coherence

/-- No object path was uploaded twice with different bytes. -/
def NoOverwrite (m : FilterCacheMachine) : Prop :=
  ∀ o ∈ m.objects, ∀ o' ∈ m.objects, o.1 = o'.1 → o.2 = o'.2

/-- What a step changes of what coherence reads: uploads go in front of the objects, and
tables are only added to those written. -/
structure Grows (m m' : FilterCacheMachine) : Prop where
  objects : ∃ new, m'.objects = new ++ m.objects
  written : m.written ⊆ m'.written

lemma Grows.refl_of {m m' : FilterCacheMachine} (ho : m'.objects = m.objects)
    (hw : m'.written = m.written) : Grows m m' :=
  ⟨⟨[], ho⟩, hw ▸ List.Subset.refl _⟩

lemma Grows.noOverwrite {m m' : FilterCacheMachine} (hg : Grows m m') (hno : NoOverwrite m') :
    NoOverwrite m := by
  obtain ⟨new, hnew⟩ := hg.objects
  intro o ho o' ho'
  exact hno o (hnew ▸ List.mem_append_right _ ho) o' (hnew ▸ List.mem_append_right _ ho')

lemma Grows.filtersReadBack {m m' : FilterCacheMachine} (hg : Grows m m')
    (h : FiltersReadBack readFilter m') : FiltersReadBack readFilter m :=
  fun t ht => h t (hg.written ht)

lemma mem_of_lookup_eq_some {α β : Type} [BEq α] [LawfulBEq α] {l : List (α × β)} {k : α}
    {b : β} (h : l.lookup k = some b) : (k, b) ∈ l := by
  obtain ⟨l₁, l₂, rfl, -⟩ := List.lookup_eq_some_iff.mp h
  exact List.mem_append_right _ (List.mem_cons_self _ _)

/-- A lookup that found an object keeps finding it once more objects are uploaded in front,
as long as none of them puts other bytes at its path. -/
lemma lookup_append_of_agree {new objects : List (String × Bytes)} {p : String} {data : Bytes}
    (h : objects.lookup p = some data) (hagree : ∀ o ∈ new, o.1 = p → o.2 = data) :
    (new ++ objects).lookup p = some data := by
  induction new with
  | nil => exact h
  | cons o new ih =>
    obtain ⟨q, d⟩ := o
    rw [List.cons_append, List.lookup_cons]
    by_cases hq : p = q
    · subst hq
      simp only [beq_self_eq_true]
      exact congrArg some (hagree _ (List.mem_cons_self _ _) rfl)
    · simp only [beq_false_of_ne hq]
      exact ih fun o ho => hagree o (List.mem_cons_of_mem _ ho)

lemma InBucket.grow {m m' : FilterCacheMachine} {id : ID} {filter : Option Bytes}
    (hg : Grows m m') (hno : NoOverwrite m') (h : InBucket ts readFilter m id filter) :
    InBucket ts readFilter m' id filter := by
  obtain ⟨data, hl, hf⟩ := h
  obtain ⟨new, hnew⟩ := hg.objects
  have hmem : (ts.sstPath id, data) ∈ m'.objects := hnew ▸ List.mem_append_right _ (mem_of_lookup_eq_some hl)
  refine ⟨data, hnew ▸ lookup_append_of_agree hl fun o ho hp => ?_, hf⟩
  exact hno o (hnew ▸ List.mem_append_left _ ho) _ hmem hp

lemma ReadFilterPc.Holds.grow {m m' : FilterCacheMachine} (hg : Grows m m')
    (hno : NoOverwrite m') {pc : ReadFilterPc} (h : ReadFilterPc.Holds ts readFilter m pc) :
    ReadFilterPc.Holds ts readFilter m' pc := by
  cases pc with
  | cache id filter => exact InBucket.grow hg hno h
  | _ => trivial

lemma WriteSSTPc.Holds.grow {m m' : FilterCacheMachine} (hg : Grows m m')
    (hno : NoOverwrite m') {pc : WriteSSTPc} (h : WriteSSTPc.Holds ts readFilter m pc) :
    WriteSSTPc.Holds ts readFilter m' pc := by
  cases pc with
  | idle => trivial
  | upload _ encodedSST => exact hg.written h
  | cache id filter => exact InBucket.grow hg hno h

/-- Coherence carries over to a machine whose new cache entries, returns and calls each
hold of it. -/
lemma CacheCoherent.of_grow {m m' : FilterCacheMachine} (hc : CacheCoherent ts readFilter m)
    (hg : Grows m m') (hno : NoOverwrite m')
    (hcached : ∀ id filter, m'.filterCache.lookup id = some filter →
      m.filterCache.lookup id = some filter ∨ InBucket ts readFilter m' id filter)
    (hreturned : ∀ r ∈ m'.returned, r ∈ m.returned ∨ InBucket ts readFilter m' r.1 r.2)
    (hreaders : ∀ pc ∈ m'.readers, pc ∈ m.readers ∨ ReadFilterPc.Holds ts readFilter m' pc)
    (hwriters : ∀ pc ∈ m'.writers, pc ∈ m.writers ∨ WriteSSTPc.Holds ts readFilter m' pc) :
    CacheCoherent ts readFilter m' where
  cached i filter h := (hcached i filter h).elim (fun h => (hc.cached i filter h).grow hg hno) id
  returned r h := (hreturned r h).elim (fun h => (hc.returned r h).grow hg hno) id
  readers pc h := (hreaders pc h).elim (fun h => (hc.readers pc h).grow hg hno) id
  writers pc h := (hwriters pc h).elim (fun h => (hc.writers pc h).grow hg hno) id

section Steps

variable {m m' : FilterCacheMachine}

@[simp] lemma readerStep_objects (m : FilterCacheMachine) (pc : ReadFilterPc) :
    (readerStep ts readFilter m pc).2.objects = m.objects := by
  cases pc <;> simp only [readerStep] <;> (try split) <;> rfl

@[simp] lemma readerStep_written (m : FilterCacheMachine) (pc : ReadFilterPc) :
    (readerStep ts readFilter m pc).2.written = m.written := by
  cases pc <;> simp only [readerStep] <;> (try split) <;> rfl

@[simp] lemma writerStep_written (ok landed : Bool) (m : FilterCacheMachine) (pc : WriteSSTPc) :
    (writerStep ts ok landed m pc).2.written = m.written := by
  cases pc <;> simp only [writerStep] <;> (try split) <;> (try split) <;> rfl

/-- `WriteSST` with an upload that succeeds when `ok`. -/
lemma writeSST_upload (ok : Bool) (id : ID) (t : EncodedTable) :
    ts.writeSST (upload ok) id t = if ok then
      .ok (⟨ts.sstPath id, t.blocks.foldl (· ++ ·) [], t.bloom⟩, ⟨id, t.info⟩)
    else .error .objectStore := by
  cases ok <;> rfl

lemma writerStep_objects (ok landed : Bool) (m : FilterCacheMachine) (pc : WriteSSTPc) :
    ∃ new, (writerStep ts ok landed m pc).2.objects = new ++ m.objects := by
  cases pc with
  | upload id t =>
    cases ok
    · cases landed
      · exact ⟨[], rfl⟩
      · exact ⟨[_], rfl⟩
    · exact ⟨[_], rfl⟩
  | _ => exact ⟨[], rfl⟩

/-- Every step only adds objects in front and tables written. -/
lemma step_grows {ev : FilterCacheEvent} (h : step ts readFilter m ev = some m') : Grows m m' := by
  cases ev with
  | readFilter t id =>
    simp only [step] at h
    split_ifs at h; cases h; exact .refl_of rfl rfl
  | reader t =>
    obtain ⟨pc, -, rfl⟩ := Option.map_eq_some'.mp h
    exact .refl_of (readerStep_objects ..) (readerStep_written ..)
  | writeSST t id t' =>
    simp only [step] at h
    split_ifs at h; cases h; exact ⟨⟨[], rfl⟩, List.subset_append_left _ _⟩
  | writer t ok landed =>
    obtain ⟨pc, -, rfl⟩ := Option.map_eq_some'.mp h
    exact ⟨writerStep_objects .., (writerStep_written ..).symm ▸ List.Subset.refl _⟩
  | evict id => cases h; exact .refl_of rfl rfl

lemma mem_set_or {α : Type} {P : α → Prop} {l : List α} {t : ℕ} {x : α} (hx : P x) :
    ∀ y ∈ l.set t x, y ∈ l ∨ P y :=
  fun y hy => (List.mem_or_eq_of_mem_set hy).imp_right fun (h : y = x) => h ▸ hx

lemma lookup_cons_eq_some {k k' : ID} {b b' : Option Bytes} {l : List (ID × Option Bytes)}
    (h : ((k', b') :: l).lookup k = some b) : (k = k' ∧ b = b') ∨ l.lookup k = some b := by
  rw [List.lookup_cons] at h
  by_cases hk : k = k'
  · subst hk
    simp only [beq_self_eq_true, Option.some.injEq] at h
    exact .inl ⟨rfl, h.symm⟩
  · simp only [beq_false_of_ne hk] at h
    exact .inr h

lemma lookup_filter_ne {l : List (ID × Option Bytes)} {id k : ID} (hk : k ≠ id) :
    (l.filter (·.1 != id)).lookup k = l.lookup k := by
  induction l with
  | nil => rfl
  | cons e l ih =>
    obtain ⟨k', b'⟩ := e
    by_cases he : k' = id
    · subst he
      simp [List.filter_cons, ih, List.lookup_cons, beq_false_of_ne hk]
    · simp [List.filter_cons, he, List.lookup_cons, ih]

lemma lookup_filter_self (l : List (ID × Option Bytes)) (id : ID) :
    (l.filter (·.1 != id)).lookup id = none := by
  induction l with
  | nil => rfl
  | cons e l ih =>
    obtain ⟨k', b'⟩ := e
    by_cases he : k' = id
    · simp [List.filter_cons, he, ih]
    · simp [List.filter_cons, he, ih, List.lookup_cons, beq_false_of_ne (Ne.symm he)]

/-- A filter just cached, or just returned, is the one in the bucket when the call's place
said so. -/
lemma cacheFilter_cached {m' : FilterCacheMachine} {id : ID} {filter : Option Bytes}
    (hcache : m'.filterCache = (id, filter) :: m.filterCache)
    (hin : InBucket ts readFilter m' id filter) :
    ∀ i f, m'.filterCache.lookup i = some f →
      m.filterCache.lookup i = some f ∨ InBucket ts readFilter m' i f := by
  intro i f h
  rw [hcache] at h
  rcases lookup_cons_eq_some h with ⟨rfl, rfl⟩ | h
  exacts [.inr hin, .inl h]

lemma returned_append {m' : FilterCacheMachine} {r₀ : ID × Option Bytes}
    (hret : m'.returned = m.returned ++ [r₀]) (hin : InBucket ts readFilter m' r₀.1 r₀.2) :
    ∀ r ∈ m'.returned, r ∈ m.returned ∨ InBucket ts readFilter m' r.1 r.2 := by
  intro r hr
  rw [hret, List.mem_append, List.mem_singleton] at hr
  exact hr.imp_right fun (h : r = r₀) => h ▸ hin

lemma CacheCoherent.reader {t : ℕ} (hc : CacheCoherent ts readFilter m)
    (h : step ts readFilter m (.reader t) = some m') (hno : NoOverwrite m') :
    CacheCoherent ts readFilter m' := by
  have hg := step_grows h
  obtain ⟨pc, hpc, rfl⟩ := Option.map_eq_some'.mp h
  have hold := hc.readers pc (List.getElem?_mem hpc)
  cases pc with
  | idle => exact hc.of_grow hg hno (fun _ _ => .inl) (fun _ => .inl) (mem_set_or trivial) (fun _ => .inl)
  | get id =>
    cases hl : m.filterCache.lookup id with
    | none =>
      simp only [readerStep, hl] at hg hno ⊢
      exact hc.of_grow hg hno (fun _ _ => .inl) (fun _ => .inl) (mem_set_or trivial) (fun _ => .inl)
    | some filter =>
      simp only [readerStep, hl] at hg hno ⊢
      exact hc.of_grow hg hno (fun _ _ => .inl)
        (returned_append rfl ((hc.cached id filter hl).grow hg hno)) (mem_set_or trivial) (fun _ => .inl)
  | read id =>
    cases hl : (m.objects.lookup (ts.sstPath id)).map readFilter with
    | some r =>
      cases r with
      | ok filter =>
        simp only [readerStep, hl] at hg hno ⊢
        obtain ⟨data, hd, hf⟩ := Option.map_eq_some'.mp hl
        exact hc.of_grow hg hno (fun _ _ => .inl) (fun _ => .inl) (mem_set_or ⟨data, hd, hf⟩)
          (fun _ => .inl)
      | error e =>
        simp only [readerStep, hl] at hg hno ⊢
        exact hc.of_grow hg hno (fun _ _ => .inl) (fun _ => .inl) (mem_set_or trivial) (fun _ => .inl)
    | none =>
      simp only [readerStep, hl] at hg hno ⊢
      exact hc.of_grow hg hno (fun _ _ => .inl) (fun _ => .inl) (mem_set_or trivial) (fun _ => .inl)
  | cache id filter =>
    have hin := ReadFilterPc.Holds.grow hg hno hold
    exact hc.of_grow hg hno (cacheFilter_cached rfl hin) (returned_append rfl hin)
      (mem_set_or trivial) (fun _ => .inl)

lemma CacheCoherent.writer {t : ℕ} {ok landed : Bool} (hc : CacheCoherent ts readFilter m)
    (h : step ts readFilter m (.writer t ok landed) = some m') (hno : NoOverwrite m')
    (hback : FiltersReadBack readFilter m') : CacheCoherent ts readFilter m' := by
  have hg := step_grows h
  obtain ⟨pc, hpc, rfl⟩ := Option.map_eq_some'.mp h
  have hold := hc.writers pc (List.getElem?_mem hpc)
  cases pc with
  | idle => exact hc.of_grow hg hno (fun _ _ => .inl) (fun _ => .inl) (fun _ => .inl) (mem_set_or trivial)
  | upload id encodedSST =>
    cases ok with
    | true =>
      simp only [writerStep, writeSST_upload, if_true] at hg hno hback ⊢
      exact hc.of_grow hg hno (fun _ _ => .inl) (fun _ => .inl) (fun _ => .inl)
        (mem_set_or ⟨_, List.lookup_cons_self, hback _ (hg.written hold)⟩)
    | false =>
      cases landed <;>
      simp only [writerStep, writeSST_upload, Bool.false_eq_true, if_true, if_false] at hg hno ⊢ <;>
      exact hc.of_grow hg hno (fun _ _ => .inl) (fun _ => .inl) (fun _ => .inl) (mem_set_or trivial)
  | cache id filter =>
    have hin := WriteSSTPc.Holds.grow hg hno hold
    exact hc.of_grow hg hno (cacheFilter_cached rfl hin) (fun _ => .inl) (fun _ => .inl)
      (mem_set_or trivial)

/-- Every event keeps the cache coherent with the bucket, when the machine it leads to has
no overwritten object and only tables whose filters read back. -/
lemma CacheCoherent.step {ev : FilterCacheEvent} (hc : CacheCoherent ts readFilter m)
    (h : step ts readFilter m ev = some m') (hno : NoOverwrite m')
    (hback : FiltersReadBack readFilter m') : CacheCoherent ts readFilter m' := by
  have hg := step_grows h
  cases ev with
  | readFilter t id =>
    simp only [FilterCacheMachine.step] at h
    split_ifs at h
    cases h
    exact hc.of_grow hg hno (fun _ _ => .inl) (fun _ => .inl) (mem_set_or trivial) (fun _ => .inl)
  | reader t => exact hc.reader h hno
  | writeSST t id encodedSST =>
    simp only [FilterCacheMachine.step] at h
    split_ifs at h
    cases h
    exact hc.of_grow hg hno (fun _ _ => .inl) (fun _ => .inl) (fun _ => .inl)
      (mem_set_or (List.mem_append_right _ (List.mem_singleton_self _)))
  | writer t ok landed => exact hc.writer h hno hback
  | evict id =>
    cases h
    refine hc.of_grow hg hno (fun i f hi => .inl ?_) (fun _ => .inl) (fun _ => .inl) (fun _ => .inl)
    by_cases hid : i = id
    · subst hid
      exact absurd ((lookup_filter_self _ _).symm.trans hi) (Option.noConfusion ·)
    · rwa [lookup_filter_ne hid] at hi

end Steps

lemma cacheCoherent_init (r w : ℕ) : CacheCoherent ts readFilter (init r w) where
  cached _ _ h := by cases h
  returned _ h := by cases h
  readers _ h := by rw [List.eq_of_mem_replicate h]; trivial
  writers _ h := by rw [List.eq_of_mem_replicate h]; trivial

lemma cacheCoherent_of_reachable {r w : ℕ} {m : FilterCacheMachine}
    (h : Reachable ts readFilter (init r w) m) (hno : NoOverwrite m)
    (hback : FiltersReadBack readFilter m) : CacheCoherent ts readFilter m := by
  induction h with
  | init => exact cacheCoherent_init r w
  | step ev _ hs ih =>
    have hg := step_grows hs
    exact (ih (hg.noOverwrite hno) (hg.filtersReadBack hback)).step hs hno hback

/-- With no overwrite and SSTs carrying their own filters, every filter cached or returned by
`ReadFilter` is the one in the SST's object. -/
theorem readFilter_agrees_with_bucket {r w : ℕ} {m : FilterCacheMachine}
    (h : Reachable ts readFilter (init r w) m) (hno : NoOverwrite m)
    (hback : FiltersReadBack readFilter m) :
    (∀ id filter, m.filterCache.lookup id = some filter → InBucket ts readFilter m id filter) ∧
      ∀ r ∈ m.returned, InBucket ts readFilter m r.1 r.2 :=
  have hc := cacheCoherent_of_reachable h hno hback
  ⟨hc.cached, hc.returned⟩

/-- A format whose filter is the whole of an object's bytes. -/
def bytesAsFilter (data : Bytes) : Except Err (Option Bytes) := .ok (some data)

/-- A table of two blocks whose filter is their bytes. -/
def twoBlockTable : EncodedTable := ⟨⟨[]⟩, some [1, 2], [[1], [2]]⟩

/-- SST `1` written, its filter read from the cache, evicted, and read again from the
bucket. -/
def writeEvictReadTrace : List FilterCacheEvent :=
  [.writeSST 0 (newIDWal 1) twoBlockTable, .writer 0 true false, .writer 0 true false,
    .readFilter 0 (newIDWal 1), .reader 0, .evict (newIDWal 1), .readFilter 0 (newIDWal 1),
    .reader 0, .reader 0, .reader 0]

theorem readFilter_agrees_with_bucket_after_eviction :
    ∃ m, Reachable (newTableStore "db") bytesAsFilter (init 1 1) m ∧ NoOverwrite m ∧
      FiltersReadBack bytesAsFilter m ∧
      m.returned = [(newIDWal 1, some [1, 2]), (newIDWal 1, some [1, 2])] ∧
      ∀ r ∈ m.returned, InBucket (newTableStore "db") bytesAsFilter m r.1 r.2 := by
  obtain ⟨m, hm, hw, hno, hret⟩ := @exists_reachable_of_run (newTableStore "db") bytesAsFilter
    (init 1 1) writeEvictReadTrace (fun m => m.written = [twoBlockTable] ∧
      (∀ o ∈ m.objects, ∀ o' ∈ m.objects, o.1 = o'.1 → o.2 = o'.2) ∧
      m.returned = [(newIDWal 1, some [1, 2]), (newIDWal 1, some [1, 2])]) _ (by decide)
  have hback : FiltersReadBack bytesAsFilter m := by
    rw [FiltersReadBack, hw]
    exact List.forall_mem_singleton.mpr rfl
  exact ⟨m, hm, hno, hback, hret, (readFilter_agrees_with_bucket hm hno hback).2⟩

/-- A read of SST `1` misses and reads the bytes `[1]`; a second write then puts `[2]` at
the same path and caches its filter before the read caches the filter it read. -/
def overwriteDuringReadTrace : List FilterCacheEvent :=
  [.writeSST 0 (newIDWal 1) ⟨⟨[]⟩, some [1], [[1]]⟩, .writer 0 true false, .writer 0 true false,
    .evict (newIDWal 1), .readFilter 0 (newIDWal 1), .reader 0, .reader 0,
    .writeSST 0 (newIDWal 1) ⟨⟨[]⟩, some [2], [[2]]⟩, .writer 0 true false, .writer 0 true false,
    .reader 0]

/-- Without `NoOverwrite` the cache goes stale: it keeps the filter of bytes the bucket no
longer holds. -/
example : ∃ m, Reachable (newTableStore "db") bytesAsFilter (init 1 1) m ∧
    m.filterCache.lookup (newIDWal 1) = some (some [1]) ∧
    m.objects.lookup ((newTableStore "db").sstPath (newIDWal 1)) = some [2] :=
  @exists_reachable_of_run (newTableStore "db") bytesAsFilter (init 1 1) overwriteDuringReadTrace
    _ _ (by decide)

end FilterCacheMachine

end SlateDB
