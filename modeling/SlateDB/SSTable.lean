import SlateDB.Go

/-! # The SST builder, by its contract

`sstable.Builder` and its block codec are absent: a builder is its adds and the number of
finished blocks `NextBlock` has handed out, the codec deciding what the blocks are. -/
namespace SlateDB

/-- `sstable.Table`: what `Build` returns. -/
structure EncodedTable where
  info : SSTableInfo
  bloom : Option Bytes
  blocks : List Bytes
  deriving DecidableEq, Repr

/-- Modelled from the spec: the block codec and filter construction behind `sstable.Builder`
(absent), given only by contract. For the adds so far it decides whether one more add is
accepted, which blocks are finished, and what `Build` encodes. Finished blocks only grow,
and they begin the blocks of the built table. -/
structure BlockCodec where
  check : List (Bytes × Option Bytes) → Bytes → Option Bytes → Except Err Unit
  finished : List (Bytes × Option Bytes) → List Bytes
  build : List (Bytes × Option Bytes) → Except Err EncodedTable
  finished_prefix : ∀ adds key value, finished adds <+: finished (adds ++ [(key, value)])
  finished_built : ∀ adds t, build adds = .ok t → finished adds <+: t.blocks

/-- Modelled from the spec: `sstable.Builder` (absent): the adds so far and how many finished
blocks `NextBlock` has handed out. -/
structure Builder where
  adds : List (Bytes × Option Bytes)
  taken : ℕ
  deriving DecidableEq, Repr

namespace Builder

variable (codec : BlockCodec)

/-- `TableBuilder()`: a fresh builder. -/
def new : Builder := ⟨[], 0⟩

/-- `Add(key, value)`, a value or, for `None`, a tombstone. -/
def add (b : Builder) (key : Bytes) (value : Option Bytes) : Except Err Builder := do
  codec.check b.adds key value
  pure ⟨b.adds ++ [(key, value)], b.taken⟩

/-- `NextBlock()`: the oldest finished block not yet handed out. -/
def nextBlock (b : Builder) : Option (Bytes × Builder) :=
  (codec.finished b.adds)[b.taken]?.map fun block => (block, ⟨b.adds, b.taken + 1⟩)

/-- `Build()`: the table, holding the blocks not yet handed out. -/
def build (b : Builder) : Except Err EncodedTable :=
  (codec.build b.adds).map fun t => { t with blocks := t.blocks.drop b.taken }

/-- The adds of a whole sequence, stopping at the first the builder rejects. -/
def addAll (b : Builder) : List (Bytes × Option Bytes) → Except Err Builder
  | [] => pure b
  | (key, value) :: rest => do
    let b' ← b.add codec key value
    addAll b' rest

variable {codec}

lemma nextBlock_eq_some {b b' : Builder} {block : Bytes} (h : b.nextBlock codec = some (block, b')) :
    b.taken < (codec.finished b.adds).length ∧ b' = ⟨b.adds, b.taken + 1⟩ := by
  simp only [nextBlock, Option.map_eq_some', Prod.mk.injEq] at h
  obtain ⟨_, hget, -, rfl⟩ := h
  exact ⟨(List.getElem?_eq_some_iff.mp hget).1, rfl⟩

lemma nextBlock_eq_none {b : Builder} :
    b.nextBlock codec = none ↔ (codec.finished b.adds).length ≤ b.taken := by
  simp [nextBlock]

lemma add_eq_ok {b b' : Builder} {key : Bytes} {value : Option Bytes}
    (h : b.add codec key value = .ok b') :
    codec.check b.adds key value = .ok () ∧ b' = ⟨b.adds ++ [(key, value)], b.taken⟩ := by
  unfold add at h
  cases hc : codec.check b.adds key value with
  | error e => simp [hc] at h
  | ok u => cases u; simp only [hc, except_ok_bind, except_pure, Except.ok.injEq] at h; exact ⟨rfl, h.symm⟩

lemma add_eq_error {b : Builder} {key : Bytes} {value : Option Bytes} {e : Err} :
    b.add codec key value = .error e ↔ codec.check b.adds key value = .error e := by
  unfold add
  cases codec.check b.adds key value <;> simp

end Builder

/-- Blocks appended one after the other onto a buffer. -/
lemma foldl_append_eq (acc : Bytes) (blocks : List Bytes) :
    blocks.foldl (· ++ ·) acc = acc ++ blocks.flatten := by
  induction blocks generalizing acc with
  | nil => simp
  | cons block blocks ih => simp [ih]

end SlateDB
