import SlateDB.SoloFlushers
import SlateDB.ConcurrentFlushers

/-! # The recovery watermark with one flusher of each kind

With one flusher of each kind and no client freeze, the groups of ImmWALs replayed into each
memtable, kept as ghost state, show that L0 gives back each key's last write up to the last
compacted WAL id while no iterator fails, and that this watermark never goes down. -/
namespace SlateDB

open Machine

namespace KVTable

/-- The table holding the puts `es`, made from an empty one. -/
def build (es : List RowEntry) : KVTable := es.foldl putEntry empty

lemma build_concat (es : List RowEntry) (e : RowEntry) :
    build (es ++ [e]) = (build es).putEntry e := by
  simp [build]

/-- Puts of strictly ascending entries: each key reads the entry put for it, or what the table
held. -/
lemma get_foldl_putEntry (t : KVTable) {es : List RowEntry} (h : KeysAscending es)
    (k : Bytes) :
    (es.foldl putEntry t).get k = ((es.find? (·.key = k)).map (·.value)).or (t.get k) := by
  induction es generalizing t with
  | nil => rfl
  | cons e es ih =>
    simp only [KeysAscending, List.map_cons, List.sorted_cons] at h
    rw [List.foldl_cons, ih _ h.2, get_putEntry]
    by_cases he : e.key = k
    · have hnone : es.find? (·.key = k) = none := List.find?_eq_none.mpr fun x hx hxk => by
        have := h.1 x.key (List.mem_map_of_mem _ hx)
        simp only [decide_eq_true_eq] at hxk
        rw [he, hxk] at this; exact lt_irrefl _ this
      simp [he, hnone]
    · rw [if_neg he, List.find?_cons_of_neg _ (by simpa using he)]

end KVTable

/-- The entries of ImmWALs, in the order a replay puts them. -/
def walEntries (Ws : List ImmutableWAL) : List RowEntry := Ws.flatMap (·.table.entries)

lemma walEntries_concat (Ws : List ImmutableWAL) (W : ImmutableWAL) :
    walEntries (Ws ++ [W]) = walEntries Ws ++ W.table.entries := by
  simp [walEntries]

/-- The last write of `k` among the ImmWALs `Ws`, the latest last. -/
def lastWrite (Ws : List ImmutableWAL) (k : Bytes) : Option ValueDeletable :=
  (Ws.filterMap (·.table.get k)).getLast?

lemma lastWrite_singleton (W : ImmutableWAL) (k : Bytes) : lastWrite [W] k = W.table.get k := by
  cases h : W.table.get k <;> simp [lastWrite, h]

lemma lastWrite_append (A B : List ImmutableWAL) (k : Bytes) :
    lastWrite (A ++ B) k = (lastWrite B k).or (lastWrite A k) := by
  simp only [lastWrite, List.filterMap_append, List.getLast?_append]

/-- Replaying ImmWALs into a table: each key reads its last write among them, or what the table
held. -/
lemma get_foldl_walEntries (t : KVTable) (Ws : List ImmutableWAL) (k : Bytes) :
    ((walEntries Ws).foldl KVTable.putEntry t).get k = (lastWrite Ws k).or (t.get k) := by
  induction Ws generalizing t with
  | nil => rfl
  | cons W Ws ih =>
    rw [walEntries, List.flatMap_cons, List.foldl_append, ← walEntries, ih,
      KVTable.get_foldl_putEntry _ W.table.ascending, ← List.singleton_append, lastWrite_append,
      Option.or_assoc, lastWrite_singleton]
    rfl

lemma get_build_walEntries (Ws : List ImmutableWAL) (k : Bytes) :
    (KVTable.build (walEntries Ws)).get k = lastWrite Ws k := by
  rw [KVTable.build, get_foldl_walEntries]; exact Option.or_none

/-- Looking a key up in an SST written from a table reads the table's value for it. -/
lemma lookup_entries (es : List RowEntry) (k : Bytes) :
    (es.map addValueArgs).lookup k = (es.find? (·.key = k)).map fun e => (addValueArgs e).2 := by
  induction es with
  | nil => rfl
  | cons e es ih =>
    by_cases h : e.key = k
    · simp [List.lookup, addValueArgs, h]
    · have hb : (k == e.key) = false := beq_eq_false_iff_ne.mpr (Ne.symm h)
      simp [List.lookup, addValueArgs, h, hb, ih]

/-- The last id among ImmWALs, or 0 for none. -/
def lastId (Ws : List ImmutableWAL) : ℕ := (Ws.getLast?.map (·.id)).getD 0

lemma lastId_of_getLast? {Ws : List ImmutableWAL} {W : ImmutableWAL}
    (h : Ws.getLast? = some W) :
    lastId Ws = W.id := by
  simp [lastId, h]

lemma lastId_append (A : List ImmutableWAL) {B : List ImmutableWAL} (hB : B ≠ []) :
    lastId (A ++ B) = lastId B := by
  obtain ⟨B, W, rfl⟩ := (List.eq_nil_or_concat B).resolve_left hB
  simp [lastId, ← List.append_assoc]

/-- In a strictly ascending record, no ImmWAL has an id above the last one's. -/
lemma id_le_lastId {L : List ImmutableWAL} (hs : (L.map (·.id)).Sorted (· < ·))
    {W : ImmutableWAL} (hW : W ∈ L) : W.id ≤ lastId L := by
  obtain ⟨P, x, rfl⟩ := (List.eq_nil_or_concat L).resolve_left (List.ne_nil_of_mem hW)
  rw [List.concat_eq_append] at hs hW ⊢
  rw [lastId_of_getLast? (List.getLast?_concat P)]
  rw [List.map_append, List.Sorted, List.pairwise_append] at hs
  rcases List.mem_append.mp hW with hW | hW
  · exact (hs.2.2 _ (List.mem_map_of_mem _ hW) _ (List.mem_singleton_self _)).le
  · rw [List.mem_singleton.mp hW]

/-- The last id of a prefix of a strictly ascending record is at most the record's. -/
lemma lastId_le_of_isPrefix {P L : List ImmutableWAL} (hs : (L.map (·.id)).Sorted (· < ·))
    (hP : P <+: L) : lastId P ≤ lastId L := by
  rcases List.eq_nil_or_concat P with rfl | ⟨P, x, rfl⟩
  · exact Nat.zero_le _
  · rw [List.concat_eq_append] at hP ⊢
    rw [lastId_of_getLast? (List.getLast?_concat P)]
    exact id_le_lastId hs (hP.subset (List.mem_concat_self P x))

/-- The content of the SST that the memtable flusher writes for a memtable replayed from the
ImmWALs `G`. -/
def groupSST (G : List ImmutableWAL) : SSTContent :=
  (KVTable.build (walEntries G)).entries.map addValueArgs

/-- The SST of a memtable replayed from `G` gives back, for a key, its last write in `G`. -/
lemma lookup_groupSST (G : List ImmutableWAL) (k : Bytes) :
    (groupSST G).lookup k = (lastWrite G k).map fun v => (addValueArgs ⟨k, v⟩).2 := by
  rw [groupSST, lookup_entries, ← get_build_walEntries, KVTable.get, Option.map_map]; rfl

variable {exact : Prop} {limit : ℕ} {m m' : Machine} {D : List (List ImmutableWAL)}
  {cur : List ImmutableWAL} {a : ℕ} {pc : WalFlushPc}

section Pipeline

/-- Where the one WAL flusher at `pc` stands in the groups: the ImmWAL it replays is the next one.
With `exact`, the live memtable `n` holds the ImmWALs `cur` and the part of the one being
replayed. -/
def WalFlushPc.LiveTable (exact : Prop) (m : Machine) (n : ℕ) (cur : List ImmutableWAL) :
    WalFlushPc → Prop
  | .memtable W => m.frozen[m.replays.length]? = some W ∧
      (exact → m.world.state.table n = KVTable.build (walEntries cur))
  | .replay W seq rest => seq = n ∧ m.frozen[m.replays.length]? = some W ∧
      (exact → ∃ done, done ++ rest = W.table.entries ∧
        m.world.state.table n = KVTable.build (walEntries cur ++ done))
  | .freeze W => cur.getLast? = some W ∧
      (exact → m.world.state.table n = KVTable.build (walEntries cur))
  | _ => exact → m.world.state.table n = KVTable.build (walEntries cur)

/-- What the one memtable flusher at `pc` holds to: the ImmMemtable it read is the oldest one,
number `a`, and with `exact` the SST it wrote for it is in the bucket. -/
def MemFlushPc.Moving (exact : Prop) (m : Machine) (D : List (List ImmutableWAL)) (a : ℕ) :
    MemFlushPc → Prop
  | .write imm => a < D.length ∧ imm = ⟨a, lastId (D.getD a [])⟩
  | .move imm h => a < D.length ∧ imm = ⟨a, lastId (D.getD a [])⟩ ∧
      (exact → (h.id, groupSST (D.getD a [])) ∈ m.world.objects)
  | _ => True

/-- The flush pipeline with one flusher of each kind and no client freeze. `D` lists, for each
memtable made so far but the live one, the ImmWALs replayed into it, in order; `cur` those
replayed into the live one; the first `a` memtables are in L0. The contents of the memtables and
of L0, which an iterator's failure cuts short, are asked for only with `exact`. -/
structure PipelineInv (exact : Prop) (m : Machine) (D : List (List ImmutableWAL))
    (cur : List ImmutableWAL) (a : ℕ) : Prop where
  live : m.world.state.memtable.seq = D.length
  length : m.world.state.memtables.length = D.length + 1
  replayed : D.flatten ++ cur = m.frozen.take m.replays.length
  replays_le : m.replays.length ≤ m.frozen.length
  pos : ∀ W ∈ m.frozen, 0 < W.id
  next_pos : 0 < m.world.state.nextWalSSTID
  nonempty : ∀ G ∈ D, G ≠ []
  tables : exact → ∀ j < D.length, m.world.state.table j = KVTable.build (walEntries (D.getD j []))
  moved : a ≤ D.length
  queue : m.world.state.immMemtables =
    (List.range' a (D.length - a)).map fun j => ⟨j, lastId (D.getD j [])⟩
  l0 : exact → List.Forall₂ (fun h G => (h.id, groupSST G) ∈ m.world.objects) m.world.state.l0
    (D.take a).reverse
  watermark : m.world.state.lastCompactedWalSSTID = lastId (D.take a).flatten
  walFlushers : ∀ pc ∈ m.walFlushers, pc.LiveTable exact m D.length cur
  memFlushers : ∀ pc ∈ m.memFlushers, pc.Moving exact m D a

/-- A step that leaves everything the pipeline reads alone, but for the bucket, which grows. -/
structure PipeFrame (m m' : Machine) : Prop where
  seq : m'.world.state.memtable.seq = m.world.state.memtable.seq
  memtables : m'.world.state.memtables = m.world.state.memtables
  immMemtables : m'.world.state.immMemtables = m.world.state.immMemtables
  l0 : m'.world.state.l0 = m.world.state.l0
  watermark : m'.world.state.lastCompactedWalSSTID = m.world.state.lastCompactedWalSSTID
  next : m.world.state.nextWalSSTID ≤ m'.world.state.nextWalSSTID
  frozen : ∃ l, m'.frozen = m.frozen ++ l ∧ ∀ W ∈ l, 0 < W.id
  replays : m'.replays = m.replays
  objects : m.world.objects ⊆ m'.world.objects

lemma PipeFrame.table (hf : PipeFrame m m') (j : ℕ) :
    m'.world.state.table j = m.world.state.table j := by
  simp only [DBState.table, hf.memtables]

lemma PipeFrame.frozen_isPrefix (hf : PipeFrame m m') : m.frozen <+: m'.frozen :=
  let ⟨l, hl, _⟩ := hf.frozen
  ⟨l, hl.symm⟩

/-- The ImmWAL next to replay stays where it is when ImmWALs are frozen after it. -/
lemma next_wal_of_isPrefix {W : ImmutableWAL} (hf : m.frozen <+: m'.frozen)
    (hr : m'.replays = m.replays) (h : m.frozen[m.replays.length]? = some W) :
    m'.frozen[m'.replays.length]? = some W := by
  obtain ⟨l, hl⟩ := hf
  rw [← hl, hr, List.getElem?_append_left (List.getElem?_eq_some_iff.mp h).1]; exact h

/-- A step that changes no part of the world the pipeline reads. -/
lemma PipeFrame.of_world (hw : m'.world = m.world) (hf : m'.frozen = m.frozen)
    (hr : m'.replays = m.replays) : PipeFrame m m' :=
  ⟨by rw [hw], by rw [hw], by rw [hw], by rw [hw], by rw [hw], by rw [hw],
    ⟨[], by rw [hf, List.append_nil], nofun⟩, hr, by rw [hw]; exact fun _ h => h⟩

/-- What a WAL flusher's place reads stays when ImmWALs are frozen after the next one and the
memtables are kept. -/
lemma WalFlushPc.LiveTable.mono {pc : WalFlushPc} {n : ℕ} (h : pc.LiveTable exact m n cur)
    (hf : m.frozen <+: m'.frozen) (hr : m'.replays = m.replays)
    (ht : m'.world.state.memtables = m.world.state.memtables) : pc.LiveTable exact m' n cur := by
  have htab : m'.world.state.table n = m.world.state.table n := by simp only [DBState.table, ht]
  cases pc with
  | memtable W => exact ⟨next_wal_of_isPrefix hf hr h.1, fun hx => htab.trans (h.2 hx)⟩
  | replay W seq rest =>
    exact ⟨h.1, next_wal_of_isPrefix hf hr h.2.1,
      fun hx => (h.2.2 hx).imp fun _ h => ⟨h.1, htab.trans h.2⟩⟩
  | freeze W => exact ⟨h.1, fun hx => htab.trans (h.2 hx)⟩
  | _ => exact fun hx => htab.trans (h hx)

lemma WalFlushPc.LiveTable.frame {pc : WalFlushPc} {n : ℕ} (h : pc.LiveTable exact m n cur)
    (hf : PipeFrame m m') : pc.LiveTable exact m' n cur :=
  h.mono hf.frozen_isPrefix hf.replays hf.memtables

lemma MemFlushPc.Moving.mono {pc : MemFlushPc} (h : pc.Moving exact m D a)
    (ho : m.world.objects ⊆ m'.world.objects) : pc.Moving exact m' D a := by
  cases pc with
  | move imm hd => exact ⟨h.1, h.2.1, fun hx => ho (h.2.2 hx)⟩
  | _ => exact h

/-- The memtables made later leave what a memtable flusher holds to as it is. -/
lemma MemFlushPc.Moving.append {pc : MemFlushPc} (h : pc.Moving exact m D a)
    (l : List (List ImmutableWAL)) :
    pc.Moving exact m (D ++ l) a := by
  cases pc with
  | write imm => exact ⟨h.1.trans_le (by simp), by rw [List.getD_append _ _ _ _ h.1]; exact h.2⟩
  | move imm hd => exact ⟨h.1.trans_le (by simp), by rw [List.getD_append _ _ _ _ h.1]; exact h.2⟩
  | _ => exact h

lemma PipelineInv.frame (hi : PipelineInv exact m D cur a) (hf : PipeFrame m m')
    (hw : ∀ pc ∈ m'.walFlushers, pc.LiveTable exact m' D.length cur)
    (hm : ∀ pc ∈ m'.memFlushers, pc.Moving exact m' D a) : PipelineInv exact m' D cur a where
  live := hf.seq.trans hi.live
  length := hf.memtables ▸ hi.length
  replayed := by
    obtain ⟨l, hl, -⟩ := hf.frozen
    rw [hl, hf.replays, List.take_append_of_le_length hi.replays_le]; exact hi.replayed
  replays_le := by
    obtain ⟨l, hl, -⟩ := hf.frozen
    rw [hl, hf.replays, List.length_append]; exact hi.replays_le.trans (Nat.le_add_right _ _)
  pos W hW := by
    obtain ⟨l, hl, hpos⟩ := hf.frozen
    rw [hl, List.mem_append] at hW
    exact hW.elim (hi.pos W) (hpos W)
  next_pos := hi.next_pos.trans_le hf.next
  nonempty := hi.nonempty
  tables hx j hj := (hf.table j).trans (hi.tables hx j hj)
  moved := hi.moved
  queue := hf.immMemtables.trans hi.queue
  l0 hx := hf.l0 ▸ (hi.l0 hx).imp fun _ _ h => hf.objects h
  watermark := hf.watermark.trans hi.watermark
  walFlushers := hw
  memFlushers := hm

/-- A step of the WAL flusher, to `pc'`, that leaves the pipeline's world alone. -/
lemma PipelineInv.walFrame {pc' : WalFlushPc} (hi : PipelineInv exact m D cur a)
    (hf : PipeFrame m m') (hm : m'.memFlushers = m.memFlushers) (hw : m'.walFlushers = [pc'])
    (hpc : PipeFrame m m' → pc'.LiveTable exact m' D.length cur) : PipelineInv exact m' D cur a :=
  hi.frame hf (by rw [hw]; simpa using hpc hf)
    fun p hp => (hi.memFlushers p (hm ▸ hp)).mono hf.objects

/-- A step of the memtable flusher, to `pc'`, that leaves the pipeline's world alone. -/
lemma PipelineInv.memFrame {pc' : MemFlushPc} (hi : PipelineInv exact m D cur a)
    (hf : PipeFrame m m') (hw : m'.walFlushers = m.walFlushers) (hm : m'.memFlushers = [pc'])
    (hpc : pc'.Moving exact m' D a) : PipelineInv exact m' D cur a :=
  hi.frame hf (fun p hp => (hi.walFlushers p (hw ▸ hp)).frame hf) (by rw [hm]; simpa using hpc)

/-- The ImmWAL a WAL flusher at `.pop W` removes is the next one to replay. -/
lemma SoloWalInv.frozen_replays {W : ImmutableWAL} (hs : SoloWalInv m (.pop W)) :
    m.frozen[m.replays.length]? = some W := by
  obtain ⟨done, hq, hp, -⟩ := hs.queue
  have hr : m.replays.length = done.length := by
    rw [← List.length_map done (·.id), ← hp, hs.replays]; simp [WalFlushPc.replaying]
  rw [hr, hq, List.getElem?_append_right le_rfl, Nat.sub_self, ← List.head?_eq_getElem?]
  exact hs.holds.1

/-- A put of an ImmWAL's replay: the live memtable holds one entry more of it. -/
lemma PipelineInv.putMemtable {W : ImmutableWAL} {e : RowEntry} {rest : List RowEntry}
    (hi : PipelineInv exact m D cur a) (hW : m.frozen[m.replays.length]? = some W)
    (hdone : exact → ∃ done, done ++ e :: rest = W.table.entries ∧
      m.world.state.table D.length = KVTable.build (walEntries cur ++ done)) :
    PipelineInv exact { m.mapState (·.putMemtable D.length e) with
      walFlushers := [.replay W D.length rest] } D cur a := by
  have hlt : D.length < m.world.state.memtables.length := hi.length ▸ Nat.lt_succ_self _
  refine ⟨hi.live, (DBState.putMemtable_memtables_length _ _ _).trans hi.length,
    hi.replayed, hi.replays_le, hi.pos, hi.next_pos, hi.nonempty,
    fun hx j hj => (DBState.table_putMemtable _ _ e hj.ne).trans (hi.tables hx j hj),
    hi.moved, hi.queue, hi.l0, hi.watermark, ?_, hi.memFlushers⟩
  simp only [List.mem_singleton, forall_eq]
  refine ⟨rfl, hW, fun hx => ?_⟩
  obtain ⟨done, hdone, htab⟩ := hdone hx
  refine ⟨done ++ [e], by simpa using hdone, ?_⟩
  refine (DBState.table_putMemtable_self _ _ e hlt).trans ?_
  rw [htab, ← List.append_assoc, KVTable.build_concat]

/-- The end of an ImmWAL's replay: it joins the live memtable's group. -/
lemma PipelineInv.setLastWalID {W : ImmutableWAL} (hi : PipelineInv exact m D cur a)
    (hW : m.frozen[m.replays.length]? = some W)
    (htab : exact → m.world.state.table D.length = KVTable.build (walEntries cur ++ W.table.entries)) :
    PipelineInv exact { m.mapState (·.setLastWalID D.length W.id) with
      replays := m.replays ++ [W.id], walFlushers := [.freeze W] } D (cur ++ [W]) a := by
  simp only [mapState, DBState.setLastWalID_eq]
  refine ⟨hi.live, hi.length, ?_, ?_, hi.pos, hi.next_pos, hi.nonempty,
    hi.tables, hi.moved, hi.queue, hi.l0, hi.watermark, ?_, hi.memFlushers⟩
  · rw [List.length_append, List.length_singleton, List.take_succ, ← hi.replayed, hW]
    simp
  · simpa using (List.getElem?_eq_some_iff.mp hW).1
  · simp only [List.mem_singleton, forall_eq]
    exact ⟨List.getLast?_concat .., fun hx => by rw [walEntries_concat]; exact htab hx⟩

/-- The WAL flusher's own freeze, after a whole ImmWAL: the live memtable's group is closed,
and a fresh memtable, with no ImmWAL replayed into it, is live. -/
lemma PipelineInv.freezeMemtable {W : ImmutableWAL} (hi : PipelineInv exact m D cur a)
    (hlast : cur.getLast? = some W)
    (htab : exact → m.world.state.table D.length = KVTable.build (walEntries cur)) :
    PipelineInv exact { m.mapState (·.freezeMemtable W.id) with walFlushers := [.notify W] }
      (D ++ [cur]) [] a := by
  have hlen := hi.length
  refine ⟨by simp [mapState, DBState.freezeMemtable, hlen],
    by simp [mapState, DBState.freezeMemtable, hlen],
    by rw [List.append_nil, List.flatten_append, List.flatten_singleton]; exact hi.replayed,
    hi.replays_le, hi.pos, hi.next_pos, ?_, ?_,
    by rw [List.length_append]; exact Nat.le_add_right_of_le hi.moved, ?_, ?_, ?_, ?_, ?_⟩
  · intro G hG
    rcases List.mem_append.mp hG with hG | hG
    · exact hi.nonempty G hG
    · obtain rfl := List.mem_singleton.mp hG; rintro rfl; cases hlast
  · intro hx j hj
    rw [List.length_append, List.length_singleton] at hj
    rw [mapState, DBState.table_freezeMemtable _ _ (hlen ▸ hj)]
    rcases Nat.lt_succ_iff_lt_or_eq.mp hj with hj | rfl
    · rw [List.getD_append _ _ _ _ hj]; exact hi.tables hx j hj
    · rw [List.getD_append_right _ _ _ _ le_rfl, Nat.sub_self]; exact htab hx
  · show m.world.state.immMemtables ++ [⟨m.world.state.memtable.seq, W.id⟩] = _
    have hsub : (D ++ [cur]).length - a = D.length - a + 1 := by
      rw [List.length_append, List.length_singleton]; exact Nat.sub_add_comm hi.moved
    rw [hi.queue, hi.live, hsub, List.range'_concat, List.map_append, one_mul,
      Nat.add_sub_cancel' hi.moved]
    congr 1
    · refine List.map_congr_left fun j hj => ?_
      rw [List.getD_append _ _ _ _ (by have := List.mem_range'_1.mp hj; have := hi.moved; omega)]
    · rw [List.map_singleton, List.getD_append_right _ _ _ _ le_rfl, Nat.sub_self,
        List.getD_cons_zero, lastId_of_getLast? hlast]
  · intro hx; rw [List.take_append_of_le_length hi.moved]; exact hi.l0 hx
  · rw [List.take_append_of_le_length hi.moved]; exact hi.watermark
  · simp only [List.mem_singleton, forall_eq]
    have hn : (D ++ [cur]).length = m.world.state.memtables.length := by
      rw [hlen, List.length_append, List.length_singleton]
    intro _
    show (m.world.state.memtables ++ [KVTable.empty]).getD _ KVTable.empty = KVTable.empty
    rw [hn, List.getD_append_right _ _ _ _ le_rfl, Nat.sub_self, List.getD_cons_zero]
  · exact fun p hp => ((hi.memFlushers p hp).append [cur]).mono fun _ h => h

/-- One step of the one WAL flusher keeps the pipeline; with `exact`, a step whose iterator does
not fail. -/
lemma PipelineInv.walFlusher {ok : Bool} {fail : Option (ℕ × Err)}
    (hi : PipelineInv exact m D cur a) (hs : SoloWalInv m pc) (hw : m.walFlushers = [pc])
    (hx : exact → fail = none) :
    ∃ D' cur', D <+: D' ∧ PipelineInv exact { (walFlusherStep limit ok fail m pc).2 with
      walFlushers := [(walFlusherStep limit ok fail m pc).1] } D' cur' a := by
  have hpc : pc.LiveTable exact m D.length cur := hi.walFlushers pc (by simp [hw])
  cases pc with
  | idle =>
    refine ⟨D, cur, List.prefix_refl _, hi.walFrame ⟨congrArg Memtable.seq (DBState.freezeWAL_memtable _),
      DBState.freezeWAL_memtables _, DBState.freezeWAL_immMemtables _, DBState.freezeWAL_l0 _,
      DBState.freezeWAL_lastCompactedWalSSTID _,
      (Nat.le_add_right _ _).trans_eq (DBState.freezeWAL_nextWalSSTID _).symm,
      ⟨_, rfl, fun W hW => ?_⟩, rfl, fun _ h => h⟩ rfl rfl hpc.frame⟩
    split_ifs at hW
    · cases hW
    · rw [List.mem_singleton.mp hW]; exact hi.next_pos
  | loop =>
    simp only [walFlusherStep]
    split <;> exact ⟨D, cur, List.prefix_refl _, hi.walFrame (PipeFrame.of_world rfl rfl rfl) rfl rfl hpc.frame⟩
  | upload W =>
    simp only [walFlusherStep]
    split
    · exact ⟨D, cur, List.prefix_refl _, hi.walFrame (PipeFrame.of_world rfl rfl rfl) rfl rfl hpc.frame⟩
    · rename_i hd w hf
      obtain ⟨-, rfl⟩ := flushImmWAL_eq_ok hf
      exact ⟨D, cur, List.prefix_refl _, hi.walFrame ⟨rfl, rfl, rfl, rfl, rfl, le_rfl,
        ⟨[], (List.append_nil _).symm, nofun⟩, rfl, List.subset_append_left _ _⟩ rfl rfl hpc.frame⟩
  | pop W =>
    exact ⟨D, cur, List.prefix_refl _, hi.walFrame ⟨rfl, rfl, rfl, rfl, rfl, le_rfl,
      ⟨[], (List.append_nil _).symm, nofun⟩, rfl, fun _ h => h⟩ rfl rfl
      fun hf => ⟨next_wal_of_isPrefix hf.frozen_isPrefix hf.replays hs.frozen_replays,
        hpc.frame hf⟩⟩
  | memtable W =>
    exact ⟨D, cur, List.prefix_refl _, hi.walFrame (PipeFrame.of_world rfl rfl rfl) rfl rfl
      fun _ => ⟨hi.live, hpc.1, fun he => ⟨[], by rw [hx he]; rfl, by simpa using hpc.2 he⟩⟩⟩
  | replay W seq rest =>
    obtain ⟨rfl, hW, hdone⟩ := hpc
    cases rest with
    | nil =>
      refine ⟨D, cur ++ [W], List.prefix_refl _, hi.setLastWalID hW fun he => ?_⟩
      obtain ⟨done, hd, htab⟩ := hdone he
      rw [List.append_nil] at hd
      rwa [← hd]
    | cons e rest => exact ⟨D, cur, List.prefix_refl _, hi.putMemtable hW hdone⟩
  | freeze W =>
    obtain ⟨hlast, htab⟩ := hpc
    rcases DBState.maybeFreezeMemtable_cases m.world.state W.id limit with hfz | hfz
    · simp only [walFlusherStep, mapState, hfz]
      exact ⟨D ++ [cur], [], List.prefix_append _ _, hi.freezeMemtable hlast htab⟩
    · refine ⟨D, cur, List.prefix_refl _, hi.walFrame (PipeFrame.of_world ?_ rfl rfl) rfl rfl
        fun hf he => (hf.table _).trans (htab he)⟩
      simp [walFlusherStep, mapState, hfz]
  | notify W =>
    exact ⟨D, cur, List.prefix_refl _, hi.walFrame ⟨rfl, rfl, rfl, rfl, rfl, le_rfl,
      ⟨[], (List.append_nil _).symm, nofun⟩, rfl, fun _ h => h⟩ rfl rfl hpc.frame⟩

/-- The ImmMemtable at the head of the queue is the oldest one not in L0. -/
lemma PipelineInv.oldest {imm : ImmutableMemtable} (hi : PipelineInv exact m D cur a)
    (h : m.world.state.oldestImmMemtable = some imm) :
    a < D.length ∧ imm = ⟨a, lastId (D.getD a [])⟩ := by
  rw [DBState.oldestImmMemtable, hi.queue] at h
  rcases hn : D.length - a with _ | n
  · simp [hn] at h
  · simp only [hn, List.range'_succ, List.map_cons, List.head?_cons, Option.some.injEq] at h
    exact ⟨by omega, h.symm⟩

/-- The move of the oldest ImmMemtable to L0: one group more is in L0, and the last compacted
WAL id becomes the id of its last ImmWAL. -/
lemma PipelineInv.moveImmMemtableToL0 {h : Handle} (hi : PipelineInv exact m D cur a)
    (ha : a < D.length) (hmem : exact → (h.id, groupSST (D.getD a [])) ∈ m.world.objects)
    (removed l0Sources : List ℕ) :
    PipelineInv exact { m.mapState (·.moveImmMemtableToL0 ⟨a, lastId (D.getD a [])⟩ h) with
      removed, l0Sources, memFlushers := [.manifest] } D cur (a + 1) := by
  have hG : D.getD a [] = D[a] := List.getD_eq_getElem _ _ ha
  have htake : D.take (a + 1) = D.take a ++ [D[a]] := by
    rw [List.take_succ, List.getElem?_eq_getElem ha, Option.toList_some]
  refine ⟨hi.live, hi.length, hi.replayed, hi.replays_le, hi.pos, hi.next_pos,
    hi.nonempty, hi.tables, ha, ?_, fun hx => ?_, ?_, hi.walFlushers,
    fun p hp => by rw [List.mem_singleton.mp hp]; trivial⟩
  · show m.world.state.immMemtables.tail = _
    rw [hi.queue, show D.length - a = D.length - (a + 1) + 1 by omega, List.range'_succ,
      List.map_cons, List.tail_cons]
  · show List.Forall₂ _ (h :: m.world.state.l0) _
    rw [htake, List.reverse_append, List.reverse_singleton, List.singleton_append]
    exact .cons (hG ▸ hmem hx) (hi.l0 hx)
  · show lastId (D.getD a []) = _
    rw [htake, List.flatten_append, List.flatten_singleton,
      lastId_append _ (hi.nonempty _ (List.getElem_mem ha)), hG]

/-- One step of the one memtable flusher keeps the pipeline; with `exact`, a step whose
iterator does not fail. -/
lemma PipelineInv.memFlusher {pc : MemFlushPc} {ok : Bool} {fail : Option (ℕ × Err)}
    (hi : PipelineInv exact m D cur a) (hm : m.memFlushers = [pc]) (hx : exact → fail = none) :
    ∃ a', a ≤ a' ∧ PipelineInv exact { (memFlusherStep ok fail m pc).2 with
      memFlushers := [(memFlusherStep ok fail m pc).1] } D cur a' := by
  have hpc : pc.Moving exact m D a := hi.memFlushers pc (by simp [hm])
  cases pc with
  | idle => exact ⟨a, le_rfl, hi.memFrame (PipeFrame.of_world rfl rfl rfl) rfl rfl trivial⟩
  | loop =>
    simp only [memFlusherStep]
    split
    · exact ⟨a, le_rfl, hi.memFrame (PipeFrame.of_world rfl rfl rfl) rfl rfl trivial⟩
    · rename_i imm himm
      exact ⟨a, le_rfl, hi.memFrame (PipeFrame.of_world rfl rfl rfl) rfl rfl (hi.oldest himm)⟩
  | write imm =>
    obtain ⟨ha, rfl⟩ := hpc
    simp only [memFlusherStep]
    split
    · exact ⟨a, le_rfl, hi.memFrame (PipeFrame.of_world rfl rfl rfl) rfl rfl trivial⟩
    · rename_i hd w hf
      obtain ⟨rfl, rfl⟩ := flushImmTable_iterRun_eq_ok hf
      refine ⟨a, le_rfl, hi.memFrame ⟨rfl, rfl, rfl, rfl, rfl, le_rfl, ⟨[], (List.append_nil _).symm, nofun⟩,
        rfl, List.subset_append_left _ _⟩ rfl rfl ⟨ha, rfl, fun he => ?_⟩⟩
      rw [groupSST, ← hi.tables he a ha, hx he, KVTable.iterEntries_none]
      exact List.mem_append_right _ (List.mem_singleton_self _)
  | move imm h =>
    obtain ⟨ha, rfl, hmem⟩ := hpc
    exact ⟨a + 1, Nat.le_succ a, hi.moveImmMemtableToL0 ha hmem _ _⟩
  | manifest =>
    exact ⟨a, le_rfl, hi.memFrame (PipeFrame.of_world rfl rfl rfl) rfl rfl (by cases ok <;> trivial)⟩

/-- A step that moves no flusher and leaves the pipeline's world alone. -/
lemma PipelineInv.quiet (hi : PipelineInv exact m D cur a) (hf : PipeFrame m m')
    (hw : m'.walFlushers = m.walFlushers) (hm : m'.memFlushers = m.memFlushers) :
    PipelineInv exact m' D cur a :=
  hi.frame hf (fun p hp => (hi.walFlushers p (hw ▸ hp)).frame hf)
    fun p hp => (hi.memFlushers p (hm ▸ hp)).mono hf.objects

lemma pipelineInv_init : PipelineInv exact (init 1 1) [] [] 0 where
  live := rfl
  length := rfl
  replayed := rfl
  replays_le := le_rfl
  pos := nofun
  next_pos := Nat.one_pos
  nonempty := nofun
  tables _ j hj := absurd hj (Nat.not_lt_zero j)
  moved := le_rfl
  queue := rfl
  l0 _ := .nil
  watermark := rfl
  walFlushers p hp := by rw [List.mem_singleton.mp hp]; exact fun _ => rfl
  memFlushers p hp := by rw [List.mem_singleton.mp hp]; trivial

/-- Every event but a client's freeze keeps the pipeline, with one flusher of each kind; with
`exact`, every such event whose iterator does not fail. -/
lemma PipelineInv.step {ev : Event} {mpc : MemFlushPc} (hi : PipelineInv exact m D cur a)
    (hs : SoloWalInv m pc) (hw : m.walFlushers = [pc]) (hm : m.memFlushers = [mpc])
    (hev : ev ≠ .freezeMemtable) (hx : exact → ev.iterFail = none)
    (h : step limit m ev = some m') :
    ∃ D' cur' a', D <+: D' ∧ a ≤ a' ∧ PipelineInv exact m' D' cur' a' := by
  cases ev with
  | write e =>
    cases h
    exact ⟨D, cur, a, List.prefix_refl _, le_rfl, hi.quiet ⟨rfl, rfl, rfl, rfl, rfl, le_rfl,
      ⟨[], (List.append_nil _).symm, nofun⟩, rfl, fun _ h => h⟩ rfl rfl⟩
  | freezeMemtable => exact absurd rfl hev
  | walFlusher t ok fail =>
    simp only [Machine.step, hw, Option.map_eq_some'] at h
    obtain ⟨pc₀, ht, rfl⟩ := h
    obtain ⟨rfl, rfl⟩ : t = 0 ∧ pc₀ = pc := by
      cases t with
      | zero => exact ⟨rfl, (Option.some.inj ht).symm⟩
      | succ t => simp at ht
    obtain ⟨D', cur', hD, h'⟩ := hi.walFlusher hs hw hx
    exact ⟨D', cur', a, hD, le_rfl, h'⟩
  | memFlusher t ok fail =>
    simp only [Machine.step, hm, Option.map_eq_some'] at h
    obtain ⟨pc₀, ht, rfl⟩ := h
    obtain ⟨rfl, rfl⟩ : t = 0 ∧ pc₀ = mpc := by
      cases t with
      | zero => exact ⟨rfl, (Option.some.inj ht).symm⟩
      | succ t => simp at ht
    obtain ⟨a', ha, h'⟩ := hi.memFlusher hm hx
    exact ⟨D, cur, a', List.prefix_refl _, ha, h'⟩

/-- A run without a client's freeze, from a machine reachable with one flusher of each kind,
keeps the pipeline; with `exact`, a run in which no iterator fails. -/
lemma pipelineInv_run {evs : List Event} (hr : Reachable limit (init 1 1) m)
    (hi : PipelineInv exact m D cur a) (hf : ∀ ev ∈ evs, ev ≠ .freezeMemtable)
    (hx : exact → ∀ ev ∈ evs, ev.iterFail = none) (h : run limit m evs = some m') :
    ∃ D' cur' a', D <+: D' ∧ a ≤ a' ∧ PipelineInv exact m' D' cur' a' := by
  induction evs generalizing m D cur a with
  | nil => cases h; exact ⟨D, cur, a, List.prefix_refl _, le_rfl, hi⟩
  | cons ev evs ih =>
    simp only [Machine.run, Option.bind_eq_some] at h
    obtain ⟨m₁, h₁, h₂⟩ := h
    obtain ⟨wpc, hw, hs⟩ := soloWalInv_of_reachable hr
    obtain ⟨mpc, hm, -⟩ := soloMemInv_of_reachable hr
    obtain ⟨D₁, cur₁, a₁, hD₁, ha₁, hi₁⟩ := hi.step hs hw hm (hf ev (List.mem_cons_self _ _))
      (fun he => hx he ev (List.mem_cons_self _ _)) h₁
    obtain ⟨D', cur', a', hD, ha, hi'⟩ :=
      ih (.step ev hr h₁) hi₁ (fun ev' h' => hf ev' (List.mem_cons_of_mem _ h'))
        (fun he ev' h' => hx he ev' (List.mem_cons_of_mem _ h')) h₂
    exact ⟨D', cur', a', hD₁.trans hD, ha₁.trans ha, hi'⟩

end Pipeline

section Read

/-- In a bucket where an id names one SST, looking the id of an SST up finds it. -/
lemma lookup_of_mem {p : ID × SSTContent} {l : List (ID × SSTContent)} (hp : p ∈ l)
    (hu : ∀ q ∈ l, q.1 = p.1 → q = p) : l.lookup p.1 = some p.2 := by
  induction l with
  | nil => cases hp
  | cons q l ih =>
    by_cases hq : q.1 = p.1
    · rw [hu q (List.mem_cons_self _ _) hq]; simp [List.lookup]
    · have hp' : p ∈ l := (List.mem_cons.mp hp).resolve_left fun h => hq (h ▸ rfl)
      have hb : (p.1 == q.1) = false := beq_eq_false_iff_ne.mpr (Ne.symm hq)
      simp [List.lookup, hb, ih hp' fun q' hq' => hu q' (List.mem_cons_of_mem _ hq')]

/-- Reading L0 SSTs, each in the bucket as the SST of its group of ImmWALs. -/
lemma filterMap_l0 {hs : List Handle} {Gs : List (List ImmutableWAL)}
    {objs : List (ID × SSTContent)}
    (h : List.Forall₂ (fun h G => (h.id, groupSST G) ∈ objs) hs Gs)
    (hu : ∀ p ∈ objs, ∀ q ∈ objs, p.1 = q.1 → p = q) (k : Bytes) :
    hs.filterMap (fun h => (objs.lookup h.id).bind (·.lookup k)) =
      Gs.filterMap fun G => (lastWrite G k).map fun v => (addValueArgs ⟨k, v⟩).2 := by
  induction h with
  | nil => rfl
  | cons hG _ ih =>
    rw [List.filterMap_cons, List.filterMap_cons, ih,
      lookup_of_mem hG fun q hq hq1 => hu q hq _ hG hq1, Option.some_bind, lookup_groupSST]

/-- The first of the groups, newest first, to write a key holds its last write. -/
lemma head?_filterMap_reverse (P : List (List ImmutableWAL)) (k : Bytes) :
    (P.reverse.filterMap (lastWrite · k)).head? = lastWrite P.flatten k := by
  induction P with
  | nil => rfl
  | cons G P ih =>
    rw [List.reverse_cons, List.filterMap_append, List.head?_append, ih, List.flatten_cons,
      lastWrite_append]
    cases h : lastWrite G k <;> simp [h]

/-- The ImmWALs up to the last id of a prefix of a strictly ascending record are the prefix. -/
lemma filter_le_lastId {P Q : List ImmutableWAL} (hs : ((P ++ Q).map (·.id)).Sorted (· < ·))
    (hpos : ∀ W ∈ Q, 0 < W.id) : (P ++ Q).filter (·.id ≤ lastId P) = P := by
  rw [List.Sorted, List.map_append, List.pairwise_append] at hs
  rw [List.filter_append, List.filter_eq_self.mpr fun W hW => decide_eq_true (id_le_lastId hs.1 hW),
    List.filter_eq_nil_iff.mpr, List.append_nil]
  intro W hW
  rcases List.eq_nil_or_concat P with rfl | ⟨P', L, rfl⟩
  · simpa [lastId, Nat.pos_iff_ne_zero] using hpos W hW
  · simpa [lastId] using hs.2.2 L.id (List.mem_map_of_mem _ (List.concat_eq_append P' L ▸
      List.mem_concat_self P' L)) W.id (List.mem_map_of_mem _ hW)

/-- With the pipeline, what L0 gives back for a key is its last write among the ImmWALs up to
the watermark. -/
lemma PipelineInv.l0Get (hi : PipelineInv True m D cur a)
    (hs : (m.frozen.map (·.id)).Sorted (· < ·))
    (hu : ∀ p ∈ m.world.objects, ∀ q ∈ m.world.objects, p.1 = q.1 → p = q) (k : Bytes) :
    m.l0Get k = (m.compactedWrite k).map fun v => (addValueArgs ⟨k, v⟩).2 := by
  obtain ⟨Q, hQ⟩ : ∃ Q, m.frozen = (D.take a).flatten ++ Q := by
    refine ⟨(D.drop a).flatten ++ cur ++ m.frozen.drop m.replays.length, ?_⟩
    simp only [← List.append_assoc, ← List.flatten_append, List.take_append_drop, hi.replayed]
  have hc : m.compactedWrite k = lastWrite (D.take a).flatten k := by
    rw [hQ] at hs
    rw [Machine.compactedWrite, hi.watermark, hQ, filter_le_lastId hs]; rfl
    intro W hW
    exact hi.pos W (by rw [hQ]; exact List.mem_append_right _ hW)
  rw [Machine.l0Get, filterMap_l0 (hi.l0 trivial) hu, ← List.map_filterMap, List.head?_map,
    head?_filterMap_reverse, hc]

lemma flatten_isPrefix_flatten {A B : List (List ImmutableWAL)} (h : A <+: B) :
    A.flatten <+: B.flatten :=
  let ⟨u, hu⟩ := h
  ⟨u.flatten, by rw [← hu, List.flatten_append]⟩

/-- Along a run the groups only grow and L0 only gains groups, so the watermark, the last id of
the groups in L0, never goes down. -/
lemma PipelineInv.watermark_le {D' : List (List ImmutableWAL)} {cur' : List ImmutableWAL}
    {a' : ℕ} (hi : PipelineInv exact m D cur a) (hi' : PipelineInv exact m' D' cur' a') (hD : D <+: D')
    (ha : a ≤ a') (hs : (m'.frozen.map (·.id)).Sorted (· < ·)) :
    m.world.state.lastCompactedWalSSTID ≤ m'.world.state.lastCompactedWalSSTID := by
  obtain ⟨t, rfl⟩ := hD
  have hP : D.take a <+: (D ++ t).take a' := by
    rw [← List.take_append_of_le_length hi.moved]; exact List.take_prefix_take_left _ ha
  have hL : ((D ++ t).take a').flatten <+: m'.frozen := by
    have htake := List.take_prefix a' (D ++ t)
    have hcur := List.prefix_append (D ++ t).flatten cur'
    have hfrozen := List.take_prefix m'.replays.length m'.frozen
    rw [← hi'.replayed] at hfrozen
    exact ((flatten_isPrefix_flatten htake).trans hcur).trans hfrozen
  rw [hi.watermark, hi'.watermark]
  exact lastId_le_of_isPrefix (List.Pairwise.sublist (hL.map _).sublist hs)
    (flatten_isPrefix_flatten hP)

end Read

/-- With one flusher of each kind, no client freeze and no failing iterator, L0 gives back for
every key its last write among the ImmWALs up to the last compacted WAL id. -/
theorem solo_flushers_keep_recovery_watermark {evs : List Event}
    (hf : ∀ ev ∈ evs, ev ≠ .freezeMemtable) (hn : ∀ ev ∈ evs, ev.iterFail = none)
    (h : run limit (init 1 1) evs = some m) (k : Bytes) :
    m.l0Get k = (m.compactedWrite k).map fun v => (addValueArgs ⟨k, v⟩).2 := by
  obtain ⟨D, cur, a, -, -, hi⟩ := pipelineInv_run .init pipelineInv_init hf (fun (_ : True) => hn) h
  obtain ⟨_, -, hs⟩ := soloWalInv_of_reachable (reachable_of_run .init h)
  exact hi.l0Get hs.ascending ((bucketInv_of_run h hn).agree_of_exact trivial) k

/-- One write, replayed into memtable 0, which the flusher's own check freezes, then flushed to
L0. -/
def soloFlushTrace : List Event :=
  [.write ⟨[1], ⟨[7], false⟩⟩] ++ List.replicate 9 (.walFlusher 0 true none) ++
    List.replicate 4 (.memFlusher 0 true none)

theorem solo_flushers_keep_recovery_watermark_one_flush :
    ∃ m, run 1 (init 1 1) soloFlushTrace = some m ∧ m.world.state.lastCompactedWalSSTID = 1 ∧
      m.l0Get [1] = some [7] ∧
      m.l0Get [1] = (m.compactedWrite [1]).map fun v => (addValueArgs ⟨[1], v⟩).2 :=
  have hr : run 1 (init 1 1) soloFlushTrace = some _ := rfl
  ⟨_, hr, by decide, by decide, solo_flushers_keep_recovery_watermark (by decide) (by decide) hr [1]⟩

/-- With one flusher of each kind and no client freeze, the last compacted WAL id never goes
down, whichever uploads are refused and whichever iterators fail. -/
theorem solo_flushers_never_lower_watermark {evs evs' : List Event}
    (hf : ∀ ev ∈ evs ++ evs', ev ≠ .freezeMemtable) (h : run limit (init 1 1) evs = some m)
    (h' : run limit m evs' = some m') :
    m.world.state.lastCompactedWalSSTID ≤ m'.world.state.lastCompactedWalSSTID := by
  have hr := reachable_of_run .init h
  obtain ⟨D, cur, a, -, -, hi⟩ := pipelineInv_run .init pipelineInv_init
    (fun ev hev => hf ev (List.mem_append_left _ hev)) False.elim h
  obtain ⟨D', cur', a', hD, ha, hi'⟩ :=
    pipelineInv_run hr hi (fun ev hev => hf ev (List.mem_append_right _ hev)) False.elim h'
  obtain ⟨_, -, hs⟩ := soloWalInv_of_reachable (reachable_of_run hr h')
  exact hi.watermark_le hi' hD ha hs.ascending

/-- A second write, replayed into memtable 1 and flushed to L0 after those of
`soloFlushTrace`. -/
def secondSoloFlushTrace : List Event :=
  [.write ⟨[2], ⟨[8], false⟩⟩] ++ List.replicate 9 (.walFlusher 0 true none) ++
    List.replicate 4 (.memFlusher 0 true none)

theorem solo_flushers_never_lower_watermark_second_flush :
    ∃ m m', run 1 (init 1 1) soloFlushTrace = some m ∧ run 1 m secondSoloFlushTrace = some m' ∧
      m.world.state.lastCompactedWalSSTID = 1 ∧ m'.world.state.lastCompactedWalSSTID = 2 ∧
      m.world.state.lastCompactedWalSSTID ≤ m'.world.state.lastCompactedWalSSTID :=
  ⟨_, _, rfl, rfl, by decide, by decide,
    @solo_flushers_never_lower_watermark 1 _ _ soloFlushTrace secondSoloFlushTrace (by decide)
      rfl rfl⟩

end SlateDB