import SlateDB.Types

/-! # The engine's core state

`DBState` (absent), modelled from the spec, each operation one step under the state lock. The
table of each memtable is kept by its creation number `seq`, so that a write through an old
pointer lands in the memtable it was meant for. -/
namespace SlateDB

/-- `table.ImmutableWAL`: a frozen WAL table and its id. -/
structure ImmutableWAL where
  id : ℕ
  table : KVTable
  deriving DecidableEq

/-- Modelled from the spec: `table.Memtable` (absent), the live memtable: the number of its
table and the id of the last ImmWAL replayed into it. -/
structure Memtable where
  seq : ℕ
  lastWalID : ℕ
  deriving DecidableEq

/-- Modelled from the spec: `table.ImmutableMemtable` (absent), a frozen memtable: the number
of its table and the last WAL id recorded when it was frozen. -/
structure ImmutableMemtable where
  seq : ℕ
  lastWalID : ℕ
  deriving DecidableEq

/-- Modelled from the spec: `DBState` (absent). Both queues hold the oldest first; L0 holds
the newest first. `memtables` holds the table of every memtable made so far, numbered by
`seq`: a pointer to a memtable keeps reaching its table after it is frozen or flushed. -/
structure DBState where
  wal : KVTable
  memtable : Memtable
  immWALs : List ImmutableWAL
  immMemtables : List ImmutableMemtable
  memtables : List KVTable
  nextWalSSTID : ℕ
  lastCompactedWalSSTID : ℕ
  l0 : List Handle
  deriving DecidableEq

namespace DBState

/-- The table of the memtable numbered `seq`. -/
def table (s : DBState) (seq : ℕ) : KVTable := s.memtables.getD seq KVTable.empty

/-- `FreezeWAL`: a non-empty WAL goes to the tail of the ImmWAL queue under the next id, and
a fresh WAL takes its place. -/
def freezeWAL (s : DBState) : DBState :=
  if s.wal.isEmpty then s
  else
    { s with
      wal := KVTable.empty
      immWALs := s.immWALs ++ [⟨s.nextWalSSTID, s.wal⟩]
      nextWalSSTID := s.nextWalSSTID + 1 }

/-- `OldestImmWAL`. -/
def oldestImmWAL (s : DBState) : Option ImmutableWAL := s.immWALs.head?

/-- `PopImmWAL`: the head of the queue leaves it, whichever it is. -/
def popImmWAL (s : DBState) : DBState := { s with immWALs := s.immWALs.tail }

/-- `memtable.Put(entry)` through a pointer to the memtable numbered `seq`. -/
def putMemtable (s : DBState) (seq : ℕ) (e : RowEntry) : DBState :=
  { s with memtables := s.memtables.modify (·.putEntry e) seq }

/-- `memtable.SetLastWalID(walID)` through a pointer to the memtable numbered `seq`; only the
live memtable's id is read later. -/
def setLastWalID (s : DBState) (seq walID : ℕ) : DBState :=
  if s.memtable.seq = seq then { s with memtable := { s.memtable with lastWalID := walID } }
  else s

/-- `freezeMemtable(walID)`: the memtable goes to the tail of the ImmMemtable queue with the
given last WAL id, and a fresh memtable takes its place. -/
def freezeMemtable (s : DBState) (walID : ℕ) : DBState :=
  { s with
    immMemtables := s.immMemtables ++ [⟨s.memtable.seq, walID⟩]
    memtable := ⟨s.memtables.length, 0⟩
    memtables := s.memtables ++ [KVTable.empty] }

/-- `maybeFreezeMemtable(state, walID)`: a freeze once the memtable holds `l0SSTSizeBytes`. -/
def maybeFreezeMemtable (l0SSTSizeBytes : ℕ) (s : DBState) (walID : ℕ) : DBState :=
  if l0SSTSizeBytes ≤ (s.table s.memtable.seq).size then s.freezeMemtable walID else s

/-- `OldestImmMemtable`. -/
def oldestImmMemtable (s : DBState) : Option ImmutableMemtable := s.immMemtables.head?

/-- `MoveImmMemtableToL0(imm, handle)`: the oldest ImmMemtable leaves the queue, whichever it
is, the handle goes to the front of L0, and the last compacted WAL id becomes `imm`'s. -/
def moveImmMemtableToL0 (s : DBState) (imm : ImmutableMemtable) (h : Handle) : DBState :=
  { s with
    immMemtables := s.immMemtables.tail
    l0 := h :: s.l0
    lastCompactedWalSSTID := imm.lastWalID }

section Frame

variable (s : DBState) (seq walID n : ℕ) (e : RowEntry) (imm : ImmutableMemtable) (h : Handle)

lemma setLastWalID_eq : s.setLastWalID seq walID = { s with memtable :=
    ⟨s.memtable.seq, if s.memtable.seq = seq then walID else s.memtable.lastWalID⟩ } := by
  unfold setLastWalID; split_ifs <;> rfl

lemma maybeFreezeMemtable_cases :
    s.maybeFreezeMemtable n walID = s.freezeMemtable walID ∨ s.maybeFreezeMemtable n walID = s := by
  unfold maybeFreezeMemtable; split_ifs <;> simp

@[simp] lemma freezeWAL_immWALs : s.freezeWAL.immWALs =
    s.immWALs ++ if s.wal.isEmpty then [] else [⟨s.nextWalSSTID, s.wal⟩] := by
  unfold freezeWAL; split_ifs <;> simp
@[simp] lemma freezeWAL_nextWalSSTID :
    s.freezeWAL.nextWalSSTID = s.nextWalSSTID + if s.wal.isEmpty then 0 else 1 := by
  unfold freezeWAL; split_ifs <;> simp

@[simp] lemma freezeWAL_immMemtables : s.freezeWAL.immMemtables = s.immMemtables := by
  unfold freezeWAL; split_ifs <;> rfl
@[simp] lemma freezeWAL_memtable : s.freezeWAL.memtable = s.memtable := by
  unfold freezeWAL; split_ifs <;> rfl
@[simp] lemma freezeWAL_memtables : s.freezeWAL.memtables = s.memtables := by
  unfold freezeWAL; split_ifs <;> rfl
@[simp] lemma freezeWAL_l0 : s.freezeWAL.l0 = s.l0 := by
  unfold freezeWAL; split_ifs <;> rfl
@[simp] lemma freezeWAL_lastCompactedWalSSTID :
    s.freezeWAL.lastCompactedWalSSTID = s.lastCompactedWalSSTID := by
  unfold freezeWAL; split_ifs <;> rfl

@[simp] lemma popImmWAL_immWALs : s.popImmWAL.immWALs = s.immWALs.tail := rfl
@[simp] lemma putMemtable_immWALs : (s.putMemtable seq e).immWALs = s.immWALs := rfl
@[simp] lemma setLastWalID_immWALs : (s.setLastWalID seq walID).immWALs = s.immWALs := by
  simp [setLastWalID_eq]
@[simp] lemma freezeMemtable_immWALs : (s.freezeMemtable walID).immWALs = s.immWALs := rfl
@[simp] lemma maybeFreezeMemtable_immWALs :
    (s.maybeFreezeMemtable n walID).immWALs = s.immWALs := by
  rcases maybeFreezeMemtable_cases s walID n with h | h <;> rw [h]; rfl

@[simp] lemma putMemtable_memtables_length :
    (s.putMemtable seq e).memtables.length = s.memtables.length :=
  List.length_modify _ _ _

/-- A put through the pointer to memtable `seq` changes that memtable only. -/
lemma table_putMemtable {j : ℕ} (hj : j ≠ seq) : (s.putMemtable seq e).table j = s.table j := by
  simp [table, putMemtable, List.getD_eq_getElem?_getD, List.getElem?_modify, Ne.symm hj]
lemma table_putMemtable_self (hseq : seq < s.memtables.length) :
    (s.putMemtable seq e).table seq = (s.table seq).putEntry e := by
  simp [table, putMemtable, List.getD_eq_getElem?_getD, List.getElem?_modify, hseq]
lemma table_freezeMemtable {j : ℕ} (hj : j < s.memtables.length) :
    (s.freezeMemtable walID).table j = s.table j := by
  simp [table, freezeMemtable, List.getElem?_append_left hj]

@[simp] lemma setLastWalID_nextWalSSTID :
    (s.setLastWalID seq walID).nextWalSSTID = s.nextWalSSTID := by
  simp [setLastWalID_eq]
@[simp] lemma maybeFreezeMemtable_nextWalSSTID :
    (s.maybeFreezeMemtable n walID).nextWalSSTID = s.nextWalSSTID := by
  rcases maybeFreezeMemtable_cases s walID n with h | h <;> rw [h]; rfl

end Frame

end DBState

end SlateDB
