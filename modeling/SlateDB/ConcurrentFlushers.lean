import SlateDB.FlushMachine
import SlateDB.GoPath

/-! # What any number of flushers keep

Under every interleaving of any number of flushers, whichever uploads are refused and iterators
fail, a notified ImmWAL has an SST of a prefix of its entries in the bucket, compacted SSTs never
share an id, and L0 names only SSTs in the bucket. All are fields of one invariant. -/
namespace SlateDB

open Machine

/-- The SST that a WAL flush writes for an ImmWAL when its iterator does not fail: `WAL(id)`
holding all of its entries. -/
def walSST (W : ImmutableWAL) : ID × SSTContent :=
  (newIDWal W.id, W.table.entries.map addValueArgs)

/-- `p` is an SST that a WAL flush can write for `W`: `WAL(id)` holding its entries up to where
the upload's iterator stopped. -/
def WalSSTOf (W : ImmutableWAL) (p : ID × SSTContent) : Prop :=
  p.1 = newIDWal W.id ∧ p.2 <+: (walSST W).2

/-- The SST that `flushImmWAL` uploads is one of `W`'s, whatever its iterator does. -/
lemma walSSTOf_iterEntries (W : ImmutableWAL) (f : Option (ℕ × Err)) :
    WalSSTOf W (newIDWal W.id, (W.table.iterEntries f).map addValueArgs) := by
  refine ⟨rfl, ?_⟩
  cases f with
  | none => exact List.prefix_refl _
  | some f =>
    show (W.table.entries.take f.1).map addValueArgs <+: W.table.entries.map addValueArgs
    rw [List.map_take]; exact List.take_prefix _ _

/-- The bucket holds an SST `WAL(id)` of `W`. -/
def Machine.HasWalSST (m : Machine) (W : ImmutableWAL) : Prop :=
  ∃ p ∈ m.world.objects, WalSSTOf W p

/-- The first key that `WriteSST` records in the handle of an SST of content `c`. -/
def firstKeyOf (c : SSTContent) : Bytes := (c.head?.map (·.1)).getD []

/-- Handle `h` names an SST in the bucket and records its first key. -/
def Machine.Names (m : Machine) (h : Handle) : Prop :=
  ∃ c, (h.id, c) ∈ m.world.objects ∧ h.info.firstKey = firstKeyOf c

/-- What a WAL flusher at `pc` holds to: the ImmWAL it read was frozen, and once uploaded an SST
of it is in the bucket. -/
def WalFlushPc.Safe (m : Machine) : WalFlushPc → Prop
  | .idle | .loop => True
  | .upload W => W ∈ m.frozen
  | .pop W | .memtable W | .replay W _ _ | .freeze W | .notify W => W ∈ m.frozen ∧ m.HasWalSST W

/-- What a memtable flusher at `pc` holds to: the handle it is about to put into L0 names a
compacted SST in the bucket. -/
def MemFlushPc.Safe (m : Machine) : MemFlushPc → Prop
  | .move _ h => m.Names h ∧ h.id.type = .compacted
  | _ => True

/-- The invariant of the bucket, the queues and the notifications. With `exact`, which holds
while no iterator fails, each WAL SST holds all of its ImmWAL's entries. -/
structure WorldInv (exact : Prop) (m : Machine) : Prop where
  fresh : ∀ W ∈ m.frozen, W.id < m.world.state.nextWalSSTID
  unique : ∀ W ∈ m.frozen, ∀ W' ∈ m.frozen, W.id = W'.id → W = W'
  queued : ∀ W ∈ m.world.state.immWALs, W ∈ m.frozen
  /-- Each object is an SST of a frozen ImmWAL, or a compacted SST under a ULID handed out. -/
  objects : ∀ p ∈ m.world.objects, (∃ W ∈ m.frozen, WalSSTOf W p ∧ (exact → p = walSST W)) ∨
    ∃ u < m.nextULID, p.1 = newIDCompacted (toString u)
  agree : ∀ p ∈ m.world.objects, ∀ q ∈ m.world.objects, p.1 = q.1 → p.1.type = .compacted → p = q
  notified : ∀ id ∈ m.world.notified, ∃ W ∈ m.frozen, W.id = id ∧ m.HasWalSST W
  l0 : ∀ h ∈ m.world.state.l0, m.Names h ∧ h.id.type = .compacted

/-- The invariant, with every flusher's place. -/
structure BucketInv (exact : Prop) (m : Machine) extends WorldInv exact m : Prop where
  walFlushers : ∀ pc ∈ m.walFlushers, pc.Safe m
  memFlushers : ∀ pc ∈ m.memFlushers, pc.Safe m

/-- A step that only adds frozen ImmWALs and objects. -/
structure Grows (m m' : Machine) : Prop where
  frozen : m.frozen ⊆ m'.frozen
  objects : m.world.objects ⊆ m'.world.objects

/-- A step that changes nothing the invariant reads, except that the queue may shrink. -/
structure Quiet (m m' : Machine) : Prop where
  frozen : m'.frozen = m.frozen
  objects : m'.world.objects = m.world.objects
  notified : m'.world.notified = m.world.notified
  nextULID : m.nextULID ≤ m'.nextULID
  immWALs : m'.world.state.immWALs ⊆ m.world.state.immWALs
  nextWalSSTID : m'.world.state.nextWalSSTID = m.world.state.nextWalSSTID
  l0 : m'.world.state.l0 = m.world.state.l0

section Frame

variable {exact : Prop} {m m' : Machine}

lemma Quiet.refl (m : Machine) : Quiet m m := ⟨rfl, rfl, rfl, le_rfl, fun _ h => h, rfl, rfl⟩

lemma Quiet.grows (h : Quiet m m') : Grows m m' :=
  ⟨h.frozen ▸ fun _ h => h, h.objects ▸ fun _ h => h⟩

lemma grows_upload (o : ID × SSTContent) (u : ℕ) :
    Grows m { m with world := { m.world with objects := m.world.objects ++ [o] }, nextULID := u } :=
  ⟨fun _ h => h, List.subset_append_left _ _⟩

lemma Machine.HasWalSST.grow {W : ImmutableWAL} (hs : m.HasWalSST W) (hg : Grows m m') :
    m'.HasWalSST W :=
  let ⟨p, hp, hW⟩ := hs
  ⟨p, hg.objects hp, hW⟩

lemma Machine.Names.grow {h : Handle} (hn : m.Names h) (hg : Grows m m') : m'.Names h :=
  let ⟨c, hc, hk⟩ := hn
  ⟨c, hg.objects hc, hk⟩

lemma WalFlushPc.Safe.grow {pc : WalFlushPc} (hs : pc.Safe m) (hg : Grows m m') : pc.Safe m' := by
  cases pc with
  | idle | loop => trivial
  | upload W => exact hg.frozen hs
  | _ => exact ⟨hg.frozen hs.1, hs.2.grow hg⟩

lemma MemFlushPc.Safe.grow {pc : MemFlushPc} (hs : pc.Safe m) (hg : Grows m m') : pc.Safe m' := by
  cases pc with
  | move _ h => exact ⟨hs.1.grow hg, hs.2⟩
  | _ => trivial

lemma WorldInv.quiet (hi : WorldInv exact m) (hq : Quiet m m') : WorldInv exact m' where
  fresh := by rw [hq.frozen, hq.nextWalSSTID]; exact hi.fresh
  unique := by rw [hq.frozen]; exact hi.unique
  queued W hW := hq.frozen ▸ hi.queued W (hq.immWALs hW)
  objects p hp := by
    rw [hq.objects] at hp
    rw [hq.frozen]
    exact (hi.objects p hp).imp_right fun ⟨u, hu, h⟩ => ⟨u, hu.trans_le hq.nextULID, h⟩
  agree := by rw [hq.objects]; exact hi.agree
  notified id hid := by
    obtain ⟨W, hW, hid, hs⟩ := hi.notified id (hq.notified ▸ hid)
    exact ⟨W, hq.frozen ▸ hW, hid, hs.grow hq.grows⟩
  l0 h hh := (hi.l0 h (hq.l0 ▸ hh)).imp_left (·.grow hq.grows)

/-- A state change under the lock that keeps the queue, the next WAL id and L0. -/
lemma quiet_mapState {f : DBState → DBState} (himm : (f m.world.state).immWALs = m.world.state.immWALs)
    (hnext : (f m.world.state).nextWalSSTID = m.world.state.nextWalSSTID)
    (hl0 : (f m.world.state).l0 = m.world.state.l0) : Quiet m (m.mapState f) :=
  ⟨rfl, rfl, rfl, le_rfl, fun _ h => himm ▸ h, hnext, hl0⟩

@[simp] lemma DBState.setLastWalID_l0 (s : DBState) (seq walID : ℕ) :
    (s.setLastWalID seq walID).l0 = s.l0 := by
  simp [DBState.setLastWalID_eq]

@[simp] lemma DBState.maybeFreezeMemtable_l0 (s : DBState) (n walID : ℕ) :
    (s.maybeFreezeMemtable n walID).l0 = s.l0 := by
  rcases DBState.maybeFreezeMemtable_cases s walID n with h | h <;> rw [h]; rfl

/-- An object under a WAL id is an SST of the ImmWAL frozen under that id, all of it with
`exact`. -/
lemma WorldInv.wal_object (hi : WorldInv exact m) {p : ID × SSTContent} (hp : p ∈ m.world.objects)
    (ht : p.1.type = .wal) : ∃ W ∈ m.frozen, WalSSTOf W p ∧ (exact → p = walSST W) :=
  (hi.objects p hp).resolve_right fun ⟨_, _, hu⟩ => by rw [hu] at ht; cases ht

/-- Two SSTs under one id of frozen ImmWALs are of the same ImmWAL. -/
lemma WorldInv.eq_of_walSSTOf (hi : WorldInv exact m) {W W' : ImmutableWAL} (hW : W ∈ m.frozen)
    (hW' : W' ∈ m.frozen) {p q : ID × SSTContent} (hp : WalSSTOf W p) (hq : WalSSTOf W' q)
    (hpq : p.1 = q.1) : W = W' :=
  hi.unique W hW W' hW' (Strconv.toString_injective (congrArg ID.value (hp.1.symm.trans (hpq.trans hq.1))))

/-- With `exact`, an SST of a frozen ImmWAL in the bucket holds all of its entries. -/
lemma WorldInv.eq_walSST (hi : WorldInv exact m) (hx : exact) {W : ImmutableWAL} (hW : W ∈ m.frozen)
    {p : ID × SSTContent} (hp : p ∈ m.world.objects) (hpW : WalSSTOf W p) : p = walSST W := by
  obtain ⟨W', hW', hpW', hex⟩ := hi.wal_object hp (by rw [hpW.1]; rfl)
  rw [hex hx, hi.eq_of_walSSTOf hW' hW hpW' hpW rfl]

/-- With `exact`, no two objects in the bucket share an id. -/
lemma WorldInv.agree_of_exact (hi : WorldInv exact m) (hx : exact) :
    ∀ p ∈ m.world.objects, ∀ q ∈ m.world.objects, p.1 = q.1 → p = q := by
  intro p hp q hq hpq
  cases ht : p.1.type with
  | compacted => exact hi.agree p hp q hq hpq ht
  | wal =>
    obtain ⟨W, hW, hpW, hp'⟩ := hi.wal_object hp ht
    obtain ⟨W', hW', hqW', hq'⟩ := hi.wal_object hq (hpq ▸ ht)
    rw [hp' hx, hq' hx, hi.eq_of_walSSTOf hW hW' hpW hqW' hpq]

end Frame

section Steps

variable {exact : Prop} {limit : ℕ} {ok : Bool} {fail : Option (ℕ × Err)} {m : Machine}

/-- A new object under an id no compacted object has keeps the compacted objects agreeing. -/
lemma agree_append {objs : List (ID × SSTContent)} {o : ID × SSTContent}
    (hagree : ∀ p ∈ objs, ∀ q ∈ objs, p.1 = q.1 → p.1.type = .compacted → p = q)
    (hnew : o.1.type = .compacted → ∀ q ∈ objs, q.1 ≠ o.1) :
    ∀ p ∈ objs ++ [o], ∀ q ∈ objs ++ [o], p.1 = q.1 → p.1.type = .compacted → p = q := by
  intro p hp q hq hpq ht
  rcases List.mem_append.mp hp with hp | hp <;> rcases List.mem_append.mp hq with hq | hq
  · exact hagree p hp q hq hpq ht
  · rw [List.mem_singleton.mp hq] at hpq ⊢; exact absurd hpq (hnew (hpq ▸ ht) p hp)
  · rw [List.mem_singleton.mp hp] at hpq ht ⊢; exact absurd hpq.symm (hnew ht q hq)
  · rw [List.mem_singleton.mp hp, List.mem_singleton.mp hq]

/-- `FlushWAL`'s freeze: a non-empty WAL is frozen under the next id, which no frozen ImmWAL
has. -/
lemma WorldInv.freezeWAL (hi : WorldInv exact m) :
    WorldInv exact (walFlusherStep limit ok fail m .idle).2 ∧
      Grows m (walFlusherStep limit ok fail m .idle).2 := by
  by_cases he : m.world.state.wal.isEmpty
  · have hq : Quiet m (walFlusherStep limit ok fail m .idle).2 := by
      refine ⟨?_, rfl, rfl, le_rfl, ?_, ?_, ?_⟩ <;> simp [walFlusherStep, mapState, he]
    exact ⟨hi.quiet hq, hq.grows⟩
  · set W : ImmutableWAL := ⟨m.world.state.nextWalSSTID, m.world.state.wal⟩
    have hfrozen : (walFlusherStep limit ok fail m .idle).2.frozen = m.frozen ++ [W] := by
      simp [walFlusherStep, mapState, he, W]
    have hold : ∀ W' ∈ m.frozen, W'.id ≠ W.id := fun W' hW' => (hi.fresh W' hW').ne
    have hg : Grows m (walFlusherStep limit ok fail m .idle).2 :=
      ⟨hfrozen ▸ List.subset_append_left _ _, fun _ h => h⟩
    have hl0 : (walFlusherStep limit ok fail m .idle).2.world.state.l0 = m.world.state.l0 := by
      simp [walFlusherStep, mapState]
    refine ⟨⟨?_, ?_, ?_, ?_, hi.agree, ?_, fun h hh => (hi.l0 h (hl0 ▸ hh)).imp_left (·.grow hg)⟩,
      hg⟩
    · simp only [hfrozen, List.mem_append, List.mem_singleton]
      simp only [walFlusherStep, mapState, DBState.freezeWAL_nextWalSSTID, he, if_false,
        Bool.false_eq_true]
      rintro W' (hW' | rfl)
      · exact Nat.lt_succ_of_lt (hi.fresh W' hW')
      · exact Nat.lt_succ_self _
    · simp only [hfrozen, List.mem_append, List.mem_singleton]
      rintro W₁ (h₁ | rfl) W₂ (h₂ | rfl) h12
      · exact hi.unique W₁ h₁ W₂ h₂ h12
      · exact absurd h12 (hold W₁ h₁)
      · exact absurd h12.symm (hold W₂ h₂)
      · rfl
    · intro W' hW'
      simp only [walFlusherStep, mapState, DBState.freezeWAL_immWALs, he, if_false,
        Bool.false_eq_true, List.append_nil, List.mem_append] at hW'
      rcases hW' with hW' | hW'
      · exact hg.frozen (hi.queued W' hW')
      · rw [hfrozen]; exact List.mem_append_right _ hW'
    · intro p hp
      exact (hi.objects p hp).imp_left fun ⟨W', hW', h⟩ => ⟨W', hg.frozen hW', h⟩
    · intro id hid
      obtain ⟨W', hW', h⟩ := hi.notified id hid
      exact ⟨W', hg.frozen hW', h⟩

/-- An upload of an SST of a frozen ImmWAL, of all of its entries unless its iterator failed. -/
lemma WorldInv.uploadWAL (hi : WorldInv exact m) {W : ImmutableWAL} (hW : W ∈ m.frozen)
    {f : Option (ℕ × Err)} (hx : exact → f = none) :
    WorldInv exact { m with world := { m.world with objects := m.world.objects ++
      [(newIDWal W.id, (W.table.iterEntries f).map addValueArgs)] } } := by
  have hg := grows_upload (m := m) (newIDWal W.id, (W.table.iterEntries f).map addValueArgs)
    m.nextULID
  refine ⟨hi.fresh, hi.unique, hi.queued, ?_, agree_append hi.agree nofun, ?_,
    fun h hh => (hi.l0 h hh).imp_left (·.grow hg)⟩
  · intro p hp
    rcases List.mem_append.mp hp with hp | hp
    · exact hi.objects p hp
    · rw [List.mem_singleton.mp hp]
      exact .inl ⟨W, hW, walSSTOf_iterEntries W f, fun he => by rw [hx he]; rfl⟩
  · intro id hid
    obtain ⟨W', hW', h⟩ := hi.notified id hid
    exact ⟨W', hW', h.1, h.2.grow hg⟩

/-- An upload of a compacted SST under the next ULID, which no object has. -/
lemma WorldInv.uploadCompacted (hi : WorldInv exact m) (c : SSTContent) :
    WorldInv exact { m with world := { m.world with objects := m.world.objects ++
      [(newIDCompacted (toString m.nextULID), c)] }, nextULID := m.nextULID + 1 } := by
  have hg := grows_upload (m := m) (newIDCompacted (toString m.nextULID), c) (m.nextULID + 1)
  refine ⟨hi.fresh, hi.unique, hi.queued, ?_, agree_append hi.agree ?_, ?_,
    fun h hh => (hi.l0 h hh).imp_left (·.grow hg)⟩
  · intro p hp
    rcases List.mem_append.mp hp with hp | hp
    · exact (hi.objects p hp).imp_right fun ⟨u, hu, h⟩ => ⟨u, Nat.lt_succ_of_lt hu, h⟩
    · exact .inr ⟨m.nextULID, Nat.lt_succ_self _, by rw [List.mem_singleton.mp hp]⟩
  · intro _ q hq hid
    rcases hi.objects q hq with ⟨W', -, hW', -⟩ | ⟨u, hu, hq1⟩
    · exact absurd (hW'.1.symm.trans hid) (by simp [newIDCompacted, newIDWal])
    · have := Strconv.toString_injective (congrArg ID.value (hq1.symm.trans hid))
      omega
  · intro id hid
    obtain ⟨W', hW', h⟩ := hi.notified id hid
    exact ⟨W', hW', h.1, h.2.grow hg⟩

/-- One step of a WAL flusher keeps the invariant, and its next place holds to it. -/
lemma walFlusherStep_inv {pc : WalFlushPc} (hx : exact → fail = none) (hi : WorldInv exact m)
    (hpc : pc.Safe m) :
    WorldInv exact (walFlusherStep limit ok fail m pc).2 ∧ Grows m (walFlusherStep limit ok fail m pc).2 ∧
      (walFlusherStep limit ok fail m pc).1.Safe (walFlusherStep limit ok fail m pc).2 := by
  have quiet : ∀ {pc' : WalFlushPc} {m' : Machine}, Quiet m m' → pc'.Safe m →
      WorldInv exact m' ∧ Grows m m' ∧ pc'.Safe m' :=
    fun hq hs => ⟨hi.quiet hq, hq.grows, hs.grow hq.grows⟩
  cases pc with
  | idle =>
    exact ⟨hi.freezeWAL.1, hi.freezeWAL.2, trivial⟩
  | loop =>
    simp only [walFlusherStep]
    split
    · exact quiet (Quiet.refl m) trivial
    · rename_i W hW
      exact quiet (Quiet.refl m) (hi.queued W (List.mem_of_mem_head? hW))
  | upload W =>
    simp only [walFlusherStep]
    split
    · exact quiet (Quiet.refl m) trivial
    · rename_i hd w hf
      obtain ⟨-, rfl⟩ := flushImmWAL_eq_ok hf
      exact ⟨hi.uploadWAL hpc hx, grows_upload _ _, hpc,
        _, List.mem_append_right _ (List.mem_singleton_self _), walSSTOf_iterEntries W _⟩
  | pop W =>
    exact quiet ⟨rfl, rfl, rfl, le_rfl, List.tail_subset _, rfl, rfl⟩ hpc
  | memtable W => exact quiet (Quiet.refl m) hpc
  | replay W seq rest =>
    cases rest with
    | nil =>
      exact quiet ⟨rfl, rfl, rfl, le_rfl, by simp [walFlusherStep, mapState],
        by simp [walFlusherStep, mapState], by simp [walFlusherStep, mapState]⟩ hpc
    | cons e rest => exact quiet ⟨rfl, rfl, rfl, le_rfl, fun _ h => h, rfl, rfl⟩ hpc
  | freeze W =>
    exact quiet ⟨rfl, rfl, rfl, le_rfl, by simp [walFlusherStep, mapState],
      by simp [walFlusherStep, mapState], by simp [walFlusherStep, mapState]⟩ hpc
  | notify W =>
    have hg : Grows m (walFlusherStep limit ok fail m (.notify W)).2 := ⟨fun _ h => h, fun _ h => h⟩
    refine ⟨⟨hi.fresh, hi.unique, hi.queued, hi.objects, hi.agree, ?_, hi.l0⟩, hg, trivial⟩
    intro id hid
    rcases List.mem_append.mp hid with hid | hid
    · exact hi.notified id hid
    · exact ⟨W, hpc.1, (List.mem_singleton.mp hid).symm, hpc.2⟩

/-- One step of a memtable flusher keeps the invariant, and its next place holds to it. -/
lemma memFlusherStep_inv {pc : MemFlushPc} (hi : WorldInv exact m) (hpc : pc.Safe m) :
    WorldInv exact (memFlusherStep ok fail m pc).2 ∧ Grows m (memFlusherStep ok fail m pc).2 ∧
      (memFlusherStep ok fail m pc).1.Safe (memFlusherStep ok fail m pc).2 := by
  cases pc with
  | idle => exact ⟨hi, ⟨fun _ h => h, fun _ h => h⟩, trivial⟩
  | loop =>
    simp only [memFlusherStep]
    split <;> exact ⟨hi, ⟨fun _ h => h, fun _ h => h⟩, trivial⟩
  | write imm =>
    simp only [memFlusherStep]
    split
    · exact ⟨hi.quiet ⟨rfl, rfl, rfl, Nat.le_succ _, fun _ h => h, rfl, rfl⟩,
        ⟨fun _ h => h, fun _ h => h⟩, trivial⟩
    · rename_i hd w hf
      obtain ⟨rfl, rfl⟩ := flushImmTable_iterRun_eq_ok hf
      exact ⟨hi.uploadCompacted _, grows_upload _ _,
        ⟨_, List.mem_append_right _ (List.mem_singleton_self _), rfl⟩, rfl⟩
  | move imm h =>
    have hg : Grows m (memFlusherStep ok fail m (.move imm h)).2 := ⟨fun _ h => h, fun _ h => h⟩
    refine ⟨⟨hi.fresh, hi.unique, hi.queued, hi.objects, hi.agree, hi.notified, ?_⟩, hg, trivial⟩
    intro h' hh'
    rcases List.mem_cons.mp hh' with rfl | hh'
    · exact hpc
    · exact hi.l0 h' hh'
  | manifest => exact ⟨hi, ⟨fun _ h => h, fun _ h => h⟩, by cases ok <;> trivial⟩

/-- Every event keeps the invariant; with `exact`, every event whose iterator does not fail. -/
lemma BucketInv.step {ev : Event} {m' : Machine} (hx : exact → ev.iterFail = none)
    (hi : BucketInv exact m) (h : step limit m ev = some m') : BucketInv exact m' := by
  cases ev with
  | write e =>
    cases h
    have hq : Quiet m (m.mapState fun s => { s with wal := s.wal.putEntry e }) := quiet_mapState rfl rfl rfl
    exact ⟨hi.quiet hq, fun pc hpc => (hi.walFlushers pc hpc).grow hq.grows,
      fun pc hpc => (hi.memFlushers pc hpc).grow hq.grows⟩
  | freezeMemtable =>
    cases h
    have hq : Quiet m (m.mapState fun s => s.freezeMemtable s.memtable.lastWalID) :=
      quiet_mapState rfl rfl rfl
    exact ⟨hi.quiet hq, fun pc hpc => (hi.walFlushers pc hpc).grow hq.grows,
      fun pc hpc => (hi.memFlushers pc hpc).grow hq.grows⟩
  | walFlusher t ok fail =>
    obtain ⟨pc, hpc, rfl⟩ := Option.map_eq_some'.mp h
    obtain ⟨hw, hg, hs⟩ := @walFlusherStep_inv exact limit ok fail m pc hx hi.toWorldInv
      (hi.walFlushers pc (List.getElem?_mem hpc))
    refine ⟨hw.quiet ⟨rfl, rfl, rfl, le_rfl, fun _ h => h, rfl, rfl⟩, fun pc' hpc' => ?_, fun pc' hpc' => ?_⟩
    · rcases List.mem_or_eq_of_mem_set hpc' with hpc' | rfl
      · exact (hi.walFlushers pc' hpc').grow ⟨hg.frozen, hg.objects⟩
      · exact hs
    · rw [walFlusherStep_memFlushers] at hpc'
      exact (hi.memFlushers pc' hpc').grow ⟨hg.frozen, hg.objects⟩
  | memFlusher t ok fail =>
    obtain ⟨pc, hpc, rfl⟩ := Option.map_eq_some'.mp h
    obtain ⟨hw, hg, hs⟩ := @memFlusherStep_inv exact ok fail m pc hi.toWorldInv
      (hi.memFlushers pc (List.getElem?_mem hpc))
    refine ⟨hw.quiet ⟨rfl, rfl, rfl, le_rfl, fun _ h => h, rfl, rfl⟩, fun pc' hpc' => ?_, fun pc' hpc' => ?_⟩
    · rw [memFlusherStep_walFlushers] at hpc'
      exact (hi.walFlushers pc' hpc').grow ⟨hg.frozen, hg.objects⟩
    · rcases List.mem_or_eq_of_mem_set hpc' with hpc' | rfl
      · exact (hi.memFlushers pc' hpc').grow ⟨hg.frozen, hg.objects⟩
      · exact hs

lemma bucketInv_init (walThreads memThreads : ℕ) : BucketInv exact (init walThreads memThreads) where
  fresh _ h := nomatch h
  unique _ h := nomatch h
  queued _ h := nomatch h
  objects _ h := nomatch h
  agree _ h := nomatch h
  notified _ h := nomatch h
  l0 _ h := nomatch h
  walFlushers pc h := by rw [List.eq_of_mem_replicate h]; trivial
  memFlushers pc h := by rw [List.eq_of_mem_replicate h]; trivial

lemma bucketInv_of_reachable {walThreads memThreads : ℕ}
    (h : Reachable limit (init walThreads memThreads) m) : BucketInv False m := by
  induction h with
  | init => exact bucketInv_init walThreads memThreads
  | step ev _ hs ih => exact ih.step False.elim hs

/-- A run keeps the invariant; with `exact`, a run in which no iterator fails. -/
lemma BucketInv.run {evs : List Event} {m' : Machine} (hi : BucketInv exact m)
    (hx : exact → ∀ ev ∈ evs, ev.iterFail = none) (h : run limit m evs = some m') :
    BucketInv exact m' := by
  induction evs generalizing m with
  | nil => cases h; exact hi
  | cons ev evs ih =>
    simp only [Machine.run, Option.bind_eq_some] at h
    obtain ⟨m₁, h₁, h₂⟩ := h
    exact ih (hi.step (fun he => hx he ev (List.mem_cons_self _ _)) h₁)
      (fun he ev' h' => hx he ev' (List.mem_cons_of_mem _ h')) h₂

lemma bucketInv_of_run {walThreads memThreads : ℕ} {evs : List Event}
    (h : run limit (init walThreads memThreads) evs = some m)
    (hf : ∀ ev ∈ evs, ev.iterFail = none) : BucketInv True m :=
  (bucketInv_init walThreads memThreads).run (fun _ => hf) h

end Steps

section Watermark

variable {limit : ℕ} {ok : Bool} {fail : Option (ℕ × Err)} {m : Machine}

/-- The ImmWAL a WAL flusher at `pc` has read, if any. -/
def WalFlushPc.immWal? : WalFlushPc → Option ImmutableWAL
  | .idle | .loop => none
  | .upload W | .pop W | .memtable W | .replay W _ _ | .freeze W | .notify W => some W

/-- The ImmMemtable a memtable flusher at `pc` has read, if any. -/
def MemFlushPc.imm? : MemFlushPc → Option ImmutableMemtable
  | .write imm | .move imm _ => some imm
  | _ => none

/-- Every WAL id the state and the flushers hold, and every one that a freeze or a move can
record, is below the next WAL id. -/
structure WatermarkInv (m : Machine) : Prop where
  queue : ∀ W ∈ m.world.state.immWALs, W.id < m.world.state.nextWalSSTID
  memtable : m.world.state.memtable.lastWalID < m.world.state.nextWalSSTID
  immMemtables : ∀ imm ∈ m.world.state.immMemtables, imm.lastWalID < m.world.state.nextWalSSTID
  watermark : m.world.state.lastCompactedWalSSTID < m.world.state.nextWalSSTID
  walFlushers : ∀ pc ∈ m.walFlushers, ∀ W ∈ pc.immWal?, W.id < m.world.state.nextWalSSTID
  memFlushers : ∀ pc ∈ m.memFlushers, ∀ imm ∈ pc.imm?, imm.lastWalID < m.world.state.nextWalSSTID

/-- The part of the invariant that reads the DB state only. -/
structure StateBelow (s : DBState) : Prop where
  queue : ∀ W ∈ s.immWALs, W.id < s.nextWalSSTID
  memtable : s.memtable.lastWalID < s.nextWalSSTID
  immMemtables : ∀ imm ∈ s.immMemtables, imm.lastWalID < s.nextWalSSTID
  watermark : s.lastCompactedWalSSTID < s.nextWalSSTID

lemma StateBelow.freezeWAL {s : DBState} (h : StateBelow s) : StateBelow s.freezeWAL := by
  unfold DBState.freezeWAL
  split_ifs
  · exact h
  · refine ⟨fun W hW => ?_, Nat.lt_succ_of_lt h.memtable,
      fun imm himm => Nat.lt_succ_of_lt (h.immMemtables imm himm), Nat.lt_succ_of_lt h.watermark⟩
    rcases List.mem_append.mp hW with hW | hW
    · exact Nat.lt_succ_of_lt (h.queue W hW)
    · rw [List.mem_singleton.mp hW]; exact Nat.lt_succ_self _

lemma StateBelow.freezeMemtable {s : DBState} {walID : ℕ} (h : StateBelow s)
    (hw : walID < s.nextWalSSTID) : StateBelow (s.freezeMemtable walID) := by
  refine ⟨h.queue, Nat.zero_lt_of_lt h.memtable, fun imm himm => ?_, h.watermark⟩
  rcases List.mem_append.mp himm with himm | himm
  · exact h.immMemtables imm himm
  · rw [List.mem_singleton.mp himm]; exact hw

lemma StateBelow.setLastWalID {s : DBState} {seq walID : ℕ} (h : StateBelow s)
    (hw : walID < s.nextWalSSTID) : StateBelow (s.setLastWalID seq walID) := by
  rw [DBState.setLastWalID_eq]
  refine ⟨h.queue, ?_, h.immMemtables, h.watermark⟩
  split_ifs
  exacts [hw, h.memtable]

lemma StateBelow.maybeFreezeMemtable {s : DBState} {n walID : ℕ} (h : StateBelow s)
    (hw : walID < s.nextWalSSTID) : StateBelow (s.maybeFreezeMemtable n walID) := by
  rcases DBState.maybeFreezeMemtable_cases s walID n with he | he <;> rw [he]
  exacts [h.freezeMemtable hw, h]

lemma StateBelow.moveImmMemtableToL0 {s : DBState} {imm : ImmutableMemtable} {hd : Handle}
    (h : StateBelow s) (hw : imm.lastWalID < s.nextWalSSTID) :
    StateBelow (s.moveImmMemtableToL0 imm hd) :=
  ⟨h.queue, h.memtable, fun imm' himm => h.immMemtables imm' (List.mem_of_mem_tail himm), hw⟩

lemma WatermarkInv.state (hi : WatermarkInv m) : StateBelow m.world.state :=
  ⟨hi.queue, hi.memtable, hi.immMemtables, hi.watermark⟩

/-- One step of a WAL flusher keeps the DB state below the next WAL id, does not lower it, and
its next place holds an ImmWAL below it. -/
lemma walFlusherStep_below {pc : WalFlushPc} (hs : StateBelow m.world.state)
    (hpc : ∀ W ∈ pc.immWal?, W.id < m.world.state.nextWalSSTID) :
    StateBelow (walFlusherStep limit ok fail m pc).2.world.state ∧
      m.world.state.nextWalSSTID ≤ (walFlusherStep limit ok fail m pc).2.world.state.nextWalSSTID ∧
      ∀ W ∈ (walFlusherStep limit ok fail m pc).1.immWal?,
        W.id < (walFlusherStep limit ok fail m pc).2.world.state.nextWalSSTID := by
  cases pc with
  | idle =>
    exact ⟨hs.freezeWAL, (Nat.le_add_right _ _).trans_eq (DBState.freezeWAL_nextWalSSTID _).symm, nofun⟩
  | loop =>
    simp only [walFlusherStep]
    split
    · exact ⟨hs, le_rfl, nofun⟩
    · rename_i W hW
      exact ⟨hs, le_rfl, fun W' hW' => Option.mem_some_iff.mp hW' ▸ hs.queue W (List.mem_of_mem_head? hW)⟩
  | upload W =>
    simp only [walFlusherStep]
    split
    · exact ⟨hs, le_rfl, nofun⟩
    · rename_i hd w hf
      obtain ⟨-, rfl⟩ := flushImmWAL_eq_ok hf
      exact ⟨hs, le_rfl, hpc⟩
  | pop W =>
    exact ⟨⟨fun W' hW' => hs.queue W' (List.mem_of_mem_tail hW'), hs.memtable, hs.immMemtables,
      hs.watermark⟩, le_rfl, hpc⟩
  | memtable W => exact ⟨hs, le_rfl, hpc⟩
  | replay W seq rest =>
    cases rest with
    | nil =>
      have hnext := DBState.setLastWalID_nextWalSSTID m.world.state seq W.id
      exact ⟨hs.setLastWalID (hpc W rfl), hnext.ge, fun W' hW' => (hpc W' hW').trans_eq hnext.symm⟩
    | cons e rest => exact ⟨⟨hs.queue, hs.memtable, hs.immMemtables, hs.watermark⟩, le_rfl, hpc⟩
  | freeze W =>
    have hnext := DBState.maybeFreezeMemtable_nextWalSSTID m.world.state W.id limit
    exact ⟨hs.maybeFreezeMemtable (hpc W rfl), hnext.ge, fun W' hW' => (hpc W' hW').trans_eq hnext.symm⟩
  | notify W => exact ⟨hs, le_rfl, nofun⟩

/-- One step of a memtable flusher keeps the DB state below the next WAL id, leaves that id, and
its next place holds an ImmMemtable below it. -/
lemma memFlusherStep_below {pc : MemFlushPc} (hs : StateBelow m.world.state)
    (hpc : ∀ imm ∈ pc.imm?, imm.lastWalID < m.world.state.nextWalSSTID) :
    StateBelow (memFlusherStep ok fail m pc).2.world.state ∧
      (memFlusherStep ok fail m pc).2.world.state.nextWalSSTID = m.world.state.nextWalSSTID ∧
      ∀ imm ∈ (memFlusherStep ok fail m pc).1.imm?,
        imm.lastWalID < (memFlusherStep ok fail m pc).2.world.state.nextWalSSTID := by
  cases pc with
  | idle => exact ⟨hs, rfl, nofun⟩
  | loop =>
    simp only [memFlusherStep]
    split
    · exact ⟨hs, rfl, nofun⟩
    · rename_i imm himm
      exact ⟨hs, rfl, fun i hi => Option.mem_some_iff.mp hi ▸
        hs.immMemtables imm (List.mem_of_mem_head? himm)⟩
  | write imm =>
    simp only [memFlusherStep]
    split
    · exact ⟨hs, rfl, nofun⟩
    · rename_i hd w hf
      obtain ⟨-, rfl⟩ := flushImmTable_iterRun_eq_ok hf
      exact ⟨hs, rfl, hpc⟩
  | move imm hd =>
    exact ⟨hs.moveImmMemtableToL0 (hpc imm rfl), rfl, nofun⟩
  | manifest => exact ⟨hs, rfl, by cases ok <;> exact nofun⟩

lemma WatermarkInv.step {ev : Event} {m' : Machine} (hi : WatermarkInv m)
    (h : step limit m ev = some m') : WatermarkInv m' := by
  cases ev with
  | write e =>
    cases h
    exact ⟨hi.queue, hi.memtable, hi.immMemtables, hi.watermark, hi.walFlushers, hi.memFlushers⟩
  | freezeMemtable =>
    cases h
    have hs := hi.state.freezeMemtable hi.memtable
    exact ⟨hs.queue, hs.memtable, hs.immMemtables, hs.watermark, hi.walFlushers, hi.memFlushers⟩
  | walFlusher t ok fail =>
    obtain ⟨pc, hpc, rfl⟩ := Option.map_eq_some'.mp h
    obtain ⟨hs, hle, hnew⟩ := @walFlusherStep_below limit ok fail m pc hi.state
      (hi.walFlushers pc (List.getElem?_mem hpc))
    refine ⟨hs.queue, hs.memtable, hs.immMemtables, hs.watermark, fun pc' hpc' => ?_, fun pc' hpc' => ?_⟩
    · rcases List.mem_or_eq_of_mem_set hpc' with hpc' | rfl
      · exact fun W hW => (hi.walFlushers pc' hpc' W hW).trans_le hle
      · exact hnew
    · rw [walFlusherStep_memFlushers] at hpc'
      exact fun imm himm => (hi.memFlushers pc' hpc' imm himm).trans_le hle
  | memFlusher t ok fail =>
    obtain ⟨pc, hpc, rfl⟩ := Option.map_eq_some'.mp h
    obtain ⟨hs, heq, hnew⟩ := @memFlusherStep_below ok fail m pc hi.state
      (hi.memFlushers pc (List.getElem?_mem hpc))
    refine ⟨hs.queue, hs.memtable, hs.immMemtables, hs.watermark, fun pc' hpc' => ?_, fun pc' hpc' => ?_⟩
    · rw [memFlusherStep_walFlushers] at hpc'
      exact fun W hW => heq ▸ hi.walFlushers pc' hpc' W hW
    · rcases List.mem_or_eq_of_mem_set hpc' with hpc' | rfl
      · exact fun imm himm => heq ▸ hi.memFlushers pc' hpc' imm himm
      · exact hnew

lemma watermarkInv_of_reachable {walThreads memThreads : ℕ}
    (h : Reachable limit (init walThreads memThreads) m) : WatermarkInv m := by
  induction h with
  | init =>
    refine ⟨nofun, Nat.zero_lt_one, nofun, Nat.zero_lt_one, fun pc hpc => ?_, fun pc hpc => ?_⟩ <;>
      rw [List.eq_of_mem_replicate hpc] <;> exact nofun
  | step ev _ hs ih => exact ih.step hs

end Watermark

section SizeLimit

variable {limit : ℕ} {ok : Bool} {fail : Option (ℕ × Err)} {m : Machine}

/-- `Memtable().Size()` of the live memtable. -/
def DBState.memtableSize (s : DBState) : ℕ := (s.table s.memtable.seq).size

/-- The WAL flusher at `pc` will still check the live memtable `seq` against the size limit:
it is replaying into it, or about to call `maybeFreezeMemtable`. -/
def WalFlushPc.willCheck (seq : ℕ) : WalFlushPc → Prop
  | .replay _ s _ => s = seq
  | .freeze _ => True
  | _ => False

/-- The live memtable is below the limit or empty, unless a WAL flusher will still check it. -/
def SizeBound (limit : ℕ) (m : Machine) : Prop :=
  m.world.state.memtableSize < limit ∨ m.world.state.memtableSize = 0 ∨
    ∃ (i : ℕ) (pc : WalFlushPc), m.walFlushers[i]? = some pc ∧ pc.willCheck m.world.state.memtable.seq

@[simp] lemma DBState.freezeMemtable_memtableSize (s : DBState) (walID : ℕ) :
    (s.freezeMemtable walID).memtableSize = 0 := by
  simp [DBState.memtableSize, DBState.freezeMemtable, DBState.table, KVTable.size]

lemma DBState.putMemtable_memtableSize {s : DBState} {seq : ℕ} (e : RowEntry) (h : seq ≠ s.memtable.seq) :
    (s.putMemtable seq e).memtableSize = s.memtableSize := by
  simp [DBState.memtableSize, DBState.putMemtable, DBState.table, List.getD_eq_getElem?_getD,
    List.getElem?_modify, h]

/-- `maybeFreezeMemtable` leaves the live memtable below the limit or empty. -/
lemma DBState.maybeFreezeMemtable_memtableSize (s : DBState) (walID : ℕ) :
    (s.maybeFreezeMemtable limit walID).memtableSize < limit ∨
      (s.maybeFreezeMemtable limit walID).memtableSize = 0 := by
  unfold DBState.maybeFreezeMemtable
  split_ifs with h
  · exact .inr (DBState.freezeMemtable_memtableSize s walID)
  · exact .inl (not_le.mp h)

/-- A step that leaves the live memtable and the other WAL flushers alone keeps the bound,
unless its flusher was the one that would still check. -/
lemma SizeBound.frame {t : ℕ} {pc pc' : WalFlushPc} {m' : Machine} (hb : SizeBound limit m)
    (ht : m.walFlushers[t]? = some pc) (hpc : ¬pc.willCheck m.world.state.memtable.seq)
    (hseq : m'.world.state.memtable.seq = m.world.state.memtable.seq)
    (hsize : m'.world.state.memtableSize = m.world.state.memtableSize)
    (hw : m'.walFlushers = m.walFlushers.set t pc') : SizeBound limit m' := by
  rcases hb with hb | hb | ⟨i, pi, hi, hc⟩
  · exact Or.inl (hsize ▸ hb)
  · exact Or.inr (Or.inl (hsize ▸ hb))
  · have hit : t ≠ i := fun hti => hpc (Option.some.inj (ht.symm.trans (hti ▸ hi)) ▸ hc)
    exact Or.inr (Or.inr ⟨i, pi, by rw [hw, List.getElem?_set_ne hit]; exact hi, hseq ▸ hc⟩)

/-- A WAL flusher's step keeps the bound. -/
lemma SizeBound.walFlusher {t : ℕ} {pc : WalFlushPc} (hb : SizeBound limit m)
    (ht : m.walFlushers[t]? = some pc) :
    SizeBound limit { (walFlusherStep limit ok fail m pc).2 with
      walFlushers := m.walFlushers.set t (walFlusherStep limit ok fail m pc).1 } := by
  have hlen : t < m.walFlushers.length := (List.getElem?_eq_some_iff.mp ht).1
  have atT : ∀ {pc' : WalFlushPc}, ((m.walFlushers.set t pc')[t]?) = some pc' := by
    intro pc'; rw [List.getElem?_set_self hlen]
  cases pc with
  | idle => exact hb.frame ht id (by simp [walFlusherStep, mapState]) (by simp [walFlusherStep, mapState,
      DBState.memtableSize, DBState.table]) rfl
  | loop =>
    refine hb.frame ht id ?_ ?_ rfl <;> simp only [walFlusherStep] <;> split <;> rfl
  | upload W =>
    refine hb.frame ht id ?_ ?_ rfl <;> simp only [walFlusherStep] <;> split <;>
      (try rename_i hd w hf; obtain ⟨-, rfl⟩ := flushImmWAL_eq_ok hf) <;> rfl
  | pop W => exact hb.frame ht id rfl rfl rfl
  | memtable W => exact hb.frame ht id rfl rfl rfl
  | replay W seq rest =>
    cases rest with
    | nil => exact Or.inr (Or.inr ⟨t, _, atT, trivial⟩)
    | cons e rest =>
      by_cases hs : seq = m.world.state.memtable.seq
      · exact Or.inr (Or.inr ⟨t, _, atT, hs⟩)
      · exact hb.frame ht hs rfl (DBState.putMemtable_memtableSize e hs) rfl
  | freeze W => exact DBState.maybeFreezeMemtable_memtableSize _ _ |>.imp id Or.inl
  | notify W => exact hb.frame ht id rfl rfl rfl

lemma SizeBound.step {ev : Event} {m' : Machine} (hb : SizeBound limit m)
    (h : step limit m ev = some m') : SizeBound limit m' := by
  cases ev with
  | write e =>
    cases h
    exact hb
  | freezeMemtable =>
    cases h
    exact Or.inr (Or.inl (DBState.freezeMemtable_memtableSize _ _))
  | walFlusher t ok fail =>
    obtain ⟨pc, hpc, rfl⟩ := Option.map_eq_some'.mp h
    exact hb.walFlusher hpc
  | memFlusher t ok fail =>
    obtain ⟨pc, hpc, rfl⟩ := Option.map_eq_some'.mp h
    have hstate : (memFlusherStep ok fail m pc).2.world.state.memtable = m.world.state.memtable ∧
        (memFlusherStep ok fail m pc).2.world.state.memtables = m.world.state.memtables := by
      cases pc with
      | write imm =>
        simp only [memFlusherStep]
        split
        · exact ⟨rfl, rfl⟩
        · rename_i hd w hf
          obtain ⟨-, rfl⟩ := flushImmTable_iterRun_eq_ok hf
          exact ⟨rfl, rfl⟩
      | loop => simp only [memFlusherStep]; split <;> exact ⟨rfl, rfl⟩
      | manifest => exact ⟨rfl, rfl⟩
      | _ => exact ⟨rfl, rfl⟩
    have hsize : (memFlusherStep ok fail m pc).2.world.state.memtableSize = m.world.state.memtableSize := by
      simp only [DBState.memtableSize, DBState.table, hstate]
    rcases hb with hb | hb | ⟨i, pi, hi, hc⟩
    · exact Or.inl (hsize ▸ hb)
    · exact Or.inr (Or.inl (hsize ▸ hb))
    · exact Or.inr (Or.inr ⟨i, pi, by rw [← hi, memFlusherStep_walFlushers], hstate.1 ▸ hc⟩)

lemma sizeBound_of_reachable {walThreads memThreads : ℕ}
    (h : Reachable limit (init walThreads memThreads) m) : SizeBound limit m := by
  induction h with
  | init => exact Or.inr (Or.inl rfl)
  | step ev _ hs ih => exact ih.step hs

end SizeLimit

section Guarantees

variable {limit walThreads memThreads : ℕ} {m : Machine}

/-- `NotifyWALFlushed` is only called for an ImmWAL with an SST `WAL(id)` in the bucket, which
holds all of its entries when no iterator of the run has failed. -/
theorem notified_imm_wals_are_durable {evs : List Event}
    (h : run limit (init walThreads memThreads) evs = some m) :
    ∀ W ∈ m.frozen, W.id ∈ m.world.notified → (∃ p ∈ m.world.objects, WalSSTOf W p) ∧
      ((∀ ev ∈ evs, ev.iterFail = none) → walSST W ∈ m.world.objects) := by
  intro W hW hid
  have hi := bucketInv_of_reachable (reachable_of_run .init h)
  obtain ⟨W', hW', hid', hs⟩ := hi.notified W.id hid
  obtain rfl := hi.unique W hW W' hW' hid'.symm
  refine ⟨hs, fun hf => ?_⟩
  obtain ⟨p, hp, hpW⟩ := hs
  exact (bucketInv_of_run h hf).eq_walSST trivial hW hp hpW ▸ hp

/-- An ImmWAL of two writes, flushed by one `FlushWAL` whose upload's iterator fails at its second
`NextEntry`: the flusher still pops, replays and notifies it. -/
def truncatedUploadTrace : List Event :=
  [.write ⟨[1], ⟨[7], false⟩⟩, .write ⟨[2], ⟨[8], false⟩⟩, .walFlusher 0 true none,
    .walFlusher 0 true none, .walFlusher 0 true (some (1, .other "iterator failed"))] ++
    List.replicate 7 (.walFlusher 0 true none)

theorem notified_imm_wals_are_durable_after_truncated_upload :
    ∃ m, run 1000 (init 1 0) truncatedUploadTrace = some m ∧ m.world.notified = [1] ∧
      (∀ W ∈ m.frozen, walSST W ∉ m.world.objects) ∧
      ∀ W ∈ m.frozen, W.id ∈ m.world.notified → (∃ p ∈ m.world.objects, WalSSTOf W p) ∧
        ((∀ ev ∈ truncatedUploadTrace, ev.iterFail = none) → walSST W ∈ m.world.objects) :=
  have hr : run 1000 (init 1 0) truncatedUploadTrace = some _ := rfl
  ⟨_, hr, rfl, by decide, notified_imm_wals_are_durable hr⟩

/-- Compacted ids are unique and each WAL SST holds a prefix of its ImmWAL's entries; with no
failed iterator, every id is unique and each WAL SST holds all of them. -/
theorem bucket_never_holds_two_versions {evs : List Event}
    (h : run limit (init walThreads memThreads) evs = some m) :
    (∀ p ∈ m.world.objects, ∀ q ∈ m.world.objects, p.1 = q.1 → p.1.type = .compacted → p = q) ∧
    (∀ p ∈ m.world.objects, p.1.type = .wal → ∃ W ∈ m.frozen, WalSSTOf W p) ∧
    ((∀ ev ∈ evs, ev.iterFail = none) →
      (∀ p ∈ m.world.objects, ∀ q ∈ m.world.objects, p.1 = q.1 → p = q) ∧
        ∀ p ∈ m.world.objects, p.1.type = .wal → ∃ W ∈ m.frozen, p = walSST W) := by
  have hi := bucketInv_of_reachable (reachable_of_run .init h)
  refine ⟨hi.agree, fun p hp ht => ?_, fun hf => ?_⟩
  · obtain ⟨W, hW, hpW, -⟩ := hi.wal_object hp ht
    exact ⟨W, hW, hpW⟩
  · have hi' := bucketInv_of_run h hf
    refine ⟨hi'.agree_of_exact trivial, fun p hp ht => ?_⟩
    obtain ⟨W, hW, -, hex⟩ := hi'.wal_object hp ht
    exact ⟨W, hW, hex trivial⟩

/-- The double pop, with the iterator of the first upload of `W1` failing at its first
`NextEntry`: the two executions upload two different SSTs `WAL(1)`. -/
def truncatedDoublePopTrace : List Event :=
  [.write ⟨[1], ⟨[7], false⟩⟩, .walFlusher 0 true none, .write ⟨[2], ⟨[8], false⟩⟩,
    .walFlusher 1 true none, .walFlusher 0 true none, .walFlusher 1 true none,
    .walFlusher 0 true (some (0, .other "iterator failed")), .walFlusher 1 true none]

theorem bucket_never_holds_two_versions_after_truncated_upload :
    ∃ m, run 1000 (init 2 0) truncatedDoublePopTrace = some m ∧
      (∃ p ∈ m.world.objects, ∃ q ∈ m.world.objects, p.1 = q.1 ∧ p ≠ q) ∧
      (∀ p ∈ m.world.objects, ∀ q ∈ m.world.objects, p.1 = q.1 → p.1.type = .compacted → p = q) ∧
      (∀ p ∈ m.world.objects, p.1.type = .wal → ∃ W ∈ m.frozen, WalSSTOf W p) ∧
      ((∀ ev ∈ truncatedDoublePopTrace, ev.iterFail = none) →
        (∀ p ∈ m.world.objects, ∀ q ∈ m.world.objects, p.1 = q.1 → p = q) ∧
          ∀ p ∈ m.world.objects, p.1.type = .wal → ∃ W ∈ m.frozen, p = walSST W) :=
  have hr : run 1000 (init 2 0) truncatedDoublePopTrace = some _ := rfl
  ⟨_, hr, by decide, bucket_never_holds_two_versions hr⟩

/-- Every SST that L0 names is in the bucket as the one object under its id, and its handle
records that object's first key. -/
theorem l0_ssts_are_in_bucket (h : Reachable limit (init walThreads memThreads) m) :
    ∀ hd ∈ m.world.state.l0, ∃ c, (hd.id, c) ∈ m.world.objects ∧
      hd.info.firstKey = firstKeyOf c ∧ ∀ c', (hd.id, c') ∈ m.world.objects → c' = c := by
  have hi := bucketInv_of_reachable h
  intro hd hhd
  obtain ⟨⟨c, hc, hk⟩, ht⟩ := hi.l0 hd hhd
  exact ⟨c, hc, hk, fun c' hc' => congrArg Prod.snd (hi.agree _ hc' _ hc rfl ht)⟩

theorem l0_ssts_are_in_bucket_after_double_move :
    ∃ m, Reachable 1000 (init 1 2) m ∧ m.world.state.l0.length = 2 ∧
      ∀ hd ∈ m.world.state.l0, ∃ c, (hd.id, c) ∈ m.world.objects ∧
        hd.info.firstKey = firstKeyOf c ∧ ∀ c', (hd.id, c') ∈ m.world.objects → c' = c := by
  obtain ⟨m, hm, hl⟩ := @exists_reachable_of_run 1000 (init 1 2) doubleMoveTrace
    (fun m => m.world.state.l0.length = 2) _ (by decide)
  exact ⟨m, hm, hl, l0_ssts_are_in_bucket hm⟩

/-- The last compacted WAL id, and the one each queued ImmMemtable will set it to, stay below the
next WAL id. -/
theorem watermark_below_next_wal_id (h : Reachable limit (init walThreads memThreads) m) :
    m.world.state.lastCompactedWalSSTID < m.world.state.nextWalSSTID ∧
      ∀ imm ∈ m.world.state.immMemtables, imm.lastWalID < m.world.state.nextWalSSTID :=
  have hi := watermarkInv_of_reachable h
  ⟨hi.watermark, hi.immMemtables⟩

theorem watermark_below_next_wal_id_after_late_replay :
    ∃ m, Reachable 1 (init 1 1) m ∧ m.world.state.lastCompactedWalSSTID = 2 ∧
      m.world.state.lastCompactedWalSSTID < m.world.state.nextWalSSTID ∧
      ∀ imm ∈ m.world.state.immMemtables, imm.lastWalID < m.world.state.nextWalSSTID := by
  obtain ⟨m, hm, hw⟩ := @exists_reachable_of_run 1 (init 1 1) lateReplayTrace
    (fun m => m.world.state.lastCompactedWalSSTID = 2) _ (by decide)
  exact ⟨m, hm, hw, watermark_below_next_wal_id hm⟩

/-- The live memtable is below `L0SSTSizeBytes`, or empty, whenever no WAL flusher will still
check it. -/
theorem memtable_below_limit_when_quiet (h : Reachable limit (init walThreads memThreads) m)
    (hq : ∀ pc ∈ m.walFlushers, ¬pc.willCheck m.world.state.memtable.seq) :
    m.world.state.memtableSize < limit ∨ m.world.state.memtableSize = 0 := by
  rcases sizeBound_of_reachable h with hb | hb | ⟨i, pc, hi, hc⟩
  · exact .inl hb
  · exact .inr hb
  · exact absurd hc (hq pc (List.getElem?_mem hi))

/-- One write, flushed by the one WAL flusher, which then rests. -/
def oneFlushTrace : List Event :=
  [.write ⟨[1], ⟨[7], false⟩⟩] ++ List.replicate 10 (.walFlusher 0 true none)

theorem memtable_below_limit_when_quiet_after_flush :
    ∃ m, Reachable 1000 (init 1 0) m ∧ m.walFlushers = [.idle] ∧ 0 < m.world.state.memtableSize ∧
      (∀ pc ∈ m.walFlushers, ¬pc.willCheck m.world.state.memtable.seq) ∧
      (m.world.state.memtableSize < 1000 ∨ m.world.state.memtableSize = 0) := by
  obtain ⟨m, hm, hw, hs⟩ := @exists_reachable_of_run 1000 (init 1 0) oneFlushTrace
    (fun m => m.walFlushers = [.idle] ∧ 0 < m.world.state.memtableSize) _ (by decide)
  have hq : ∀ pc ∈ m.walFlushers, ¬pc.willCheck m.world.state.memtable.seq := by
    rw [hw]; simp [WalFlushPc.willCheck]
  exact ⟨m, hm, hw, hs, hq, memtable_below_limit_when_quiet hm hq⟩

end Guarantees

end SlateDB
