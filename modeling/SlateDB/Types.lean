import Mathlib

/-! The values the engine moves between tiers: byte keys, values that may be tombstones,
row entries, SST ids and handles, and the ordered in-memory table under the WAL and the
memtable. Keys are compared as `bytes.Compare` compares them, lexicographically. -/
namespace SlateDB

/-- A Go `byte`. -/
abbrev Byte := Fin 256

/-- A Go `[]byte`, with the lexicographic order of `bytes.Compare`. -/
abbrev Bytes := List Byte

/-- `common.ValueDeletable`: a value, or a tombstone when `isTombstone` is set. -/
structure ValueDeletable where
  value : Bytes
  isTombstone : Bool
  deriving DecidableEq, Repr

/-- `common.KV` / `types.RowEntry`: a key with a value or a tombstone. -/
structure RowEntry where
  key : Bytes
  value : ValueDeletable
  deriving DecidableEq, Repr

/-- `types.KeyValue`: a key with a present value. -/
structure KeyValue where
  key : Bytes
  value : Bytes
  deriving DecidableEq, Repr

/-- The two kinds of SST id, `sstable.WAL` and `sstable.Compacted`. -/
inductive SSTableType
  | wal
  | compacted
  deriving DecidableEq, Repr

/-- `sstable.ID`: the kind and the printed id that names the object. -/
structure ID where
  type : SSTableType
  value : String
  deriving DecidableEq, Repr

/-- Modelled from the spec: `sstable.NewIDWal` (absent), whose object is named by the
decimal id, `<root>/wal/<decimal-u64-id>.sst`. -/
def newIDWal (id : ℕ) : ID := ⟨.wal, toString id⟩

/-- Modelled from the spec: `sstable.NewIDCompacted` (absent), named by its ULID text. -/
def newIDCompacted (ulid : String) : ID := ⟨.compacted, ulid⟩

/-- The part of `sstable.Info` that the modelled code reads. -/
structure SSTableInfo where
  firstKey : Bytes
  deriving DecidableEq, Repr

/-- `sstable.Handle`. -/
structure Handle where
  id : ID
  info : SSTableInfo
  deriving DecidableEq, Repr

/-- Strictly ascending keys: the shape of every table and SST. -/
def KeysAscending (es : List RowEntry) : Prop := (es.map RowEntry.key).Sorted (· < ·)

instance (es : List RowEntry) : Decidable (KeysAscending es) :=
  inferInstanceAs (Decidable (List.Sorted _ _))

namespace Table

/-- Insert or overwrite one entry of a strictly ascending entry list. -/
def upsert (e : RowEntry) : List RowEntry → List RowEntry
  | [] => [e]
  | x :: xs =>
    if e.key < x.key then e :: x :: xs
    else if e.key = x.key then e :: xs
    else x :: upsert e xs

lemma mem_upsert {e y : RowEntry} {xs : List RowEntry} (h : y ∈ upsert e xs) :
    y = e ∨ y ∈ xs := by
  induction xs with
  | nil => exact .inl (List.mem_singleton.mp h)
  | cons x xs ih =>
    simp only [upsert] at h
    split_ifs at h
    · exact List.mem_cons.mp h
    · simp only [List.mem_cons] at h ⊢
      exact h.imp_right .inr
    · simp only [List.mem_cons] at h ⊢
      rcases h with h | h
      · exact .inr (.inl h)
      · exact (ih h).imp_right .inr

/-- An upsert leaves, for a key, the entry put if it has that key, and the old one if not. -/
lemma find?_upsert (e : RowEntry) (xs : List RowEntry) (k : Bytes) :
    (upsert e xs).find? (·.key = k) = if e.key = k then some e else xs.find? (·.key = k) := by
  induction xs with
  | nil => by_cases h : e.key = k <;> simp [upsert, h]
  | cons x xs ih =>
    simp only [upsert]
    by_cases h : e.key = k
    · rw [if_pos h]
      split_ifs with hlt heq
      · simp [h]
      · simp [h]
      · have hxk : x.key ≠ k := fun hx => heq (h.trans hx.symm)
        simp [hxk, ih, h]
    · rw [if_neg h]
      split_ifs with hlt heq
      · rw [List.find?_cons_of_neg _ (by simpa using h)]
      · have hxk : x.key ≠ k := fun hx => h (heq.trans hx)
        rw [List.find?_cons_of_neg _ (by simpa using h), List.find?_cons_of_neg _ (by simpa using hxk)]
      · rw [List.find?_cons, List.find?_cons, ih, if_neg h]

lemma upsert_ascending (e : RowEntry) {xs : List RowEntry} (h : KeysAscending xs) :
    KeysAscending (upsert e xs) := by
  induction xs with
  | nil => simp [KeysAscending, upsert]
  | cons x xs ih =>
    simp only [KeysAscending, List.map_cons, List.sorted_cons] at h
    simp only [upsert]
    split_ifs with hlt heq
    · simp only [KeysAscending, List.map_cons, List.sorted_cons, List.mem_cons]
      exact ⟨fun b hb => hb.elim (· ▸ hlt) (fun hb => hlt.trans (h.1 b hb)), h.1, h.2⟩
    · simp only [KeysAscending, List.map_cons, List.sorted_cons]
      exact ⟨fun b hb => heq ▸ h.1 b hb, h.2⟩
    · have hgt : x.key < e.key := lt_of_le_of_ne (not_lt.mp hlt) (Ne.symm heq)
      simp only [KeysAscending, List.map_cons, List.sorted_cons]
      refine ⟨fun b hb => ?_, ih h.2⟩
      obtain ⟨y, hy, rfl⟩ := List.mem_map.mp hb
      rcases mem_upsert hy with rfl | hy
      · exact hgt
      · exact h.1 _ (List.mem_map_of_mem _ hy)

end Table

/-- Modelled from the spec: `table.KVTable` (absent), an ordered map from key to value or
tombstone. The entries are held in ascending key order, which `iter` yields. -/
structure KVTable where
  entries : List RowEntry
  ascending : KeysAscending entries

namespace KVTable

instance : DecidableEq KVTable := fun a b =>
  decidable_of_iff (a.entries = b.entries) (by cases a; cases b; simp)

/-- The empty table `newKVTable`. -/
def empty : KVTable := ⟨[], List.sorted_nil⟩

/-- `put` of an entry (a value or a tombstone): inserts or overwrites its key. -/
def putEntry (t : KVTable) (e : RowEntry) : KVTable :=
  ⟨Table.upsert e t.entries, Table.upsert_ascending e t.ascending⟩

/-- `put(key, value)`. -/
def put (t : KVTable) (key value : Bytes) : KVTable := t.putEntry ⟨key, ⟨value, false⟩⟩

/-- `delete(key)`: a tombstone. -/
def delete (t : KVTable) (key : Bytes) : KVTable := t.putEntry ⟨key, ⟨[], true⟩⟩

/-- `get(key)`: exact match. -/
def get (t : KVTable) (key : Bytes) : Option ValueDeletable :=
  (t.entries.find? (·.key = key)).map RowEntry.value

/-- `iter()`: the entries in key order. -/
def iter (t : KVTable) : List RowEntry := t.entries

def isEmpty (t : KVTable) : Bool := t.entries.isEmpty

/-- `size`: key bytes plus value bytes, a tombstone counting its key only. -/
def size (t : KVTable) : ℕ :=
  (t.entries.map fun e => e.key.length + if e.value.isTombstone then 0 else e.value.value.length).sum

@[simp] lemma empty_entries : empty.entries = [] := rfl
@[simp] lemma putEntry_entries (t : KVTable) (e : RowEntry) :
    (t.putEntry e).entries = Table.upsert e t.entries := rfl

lemma get_putEntry (t : KVTable) (e : RowEntry) (k : Bytes) :
    (t.putEntry e).get k = if e.key = k then some e.value else t.get k := by
  simp only [get, putEntry_entries, Table.find?_upsert]
  split_ifs <;> rfl
@[simp] lemma iter_eq (t : KVTable) : t.iter = t.entries := rfl

end KVTable

end SlateDB
