import SlateDB.GoPath
import SlateDB.SSTable

/-! # The table store

`table.TableStore` names each SST object by its id (`sstPath`), lists the WAL SSTs not yet
compacted on open (`getWalSSTList`), and writes an SST whole or block by block. -/
namespace SlateDB

/-- The names `table.TableStore` builds object paths from. Its bucket is passed to each
operation that reads or writes it. -/
structure TableStore where
  rootPath : String
  walPath : String
  compactedPath : String
  deriving DecidableEq, Repr

/-- `NewTableStore(bucket, format, rootPath)`. -/
def newTableStore (rootPath : String) : TableStore := ⟨rootPath, "wal", "compacted"⟩

/-- What a write of an SST did to the table store: the object it uploaded, and the filter it
cached for the SST's id. -/
structure SSTWrite where
  path : String
  data : Bytes
  filter : Option Bytes
  deriving DecidableEq, Repr

/-- `table.EncodedSSTableWriter`: the SST's id, its builder, the bytes of the blocks moved out
of the builder so far, and their number. -/
structure EncodedSSTableWriter where
  sstID : ID
  builder : Builder
  buffer : Bytes
  blocksWritten : ℕ
  deriving DecidableEq, Repr

/-- A name of the form `<digits>.sst` whose digits read `n`. -/
def IsWalName (name : String) (n : ℕ) : Prop :=
  ∃ d : List Char, d ≠ [] ∧ (∀ c ∈ d, c.isDigit) ∧ name = ⟨d ++ ".sst".data⟩ ∧
    Strconv.decimalValue 0 d = n

namespace TableStore

/-- `sstPath`: `<root>/wal/<id>.sst` or `<root>/compacted/<id>.sst`. -/
def sstPath (ts : TableStore) (id : ID) : String :=
  match id.type with
  | .wal => Path.join [ts.rootPath, ts.walPath, id.value ++ ".sst"]
  | .compacted => Path.join [ts.rootPath, ts.compactedPath, id.value ++ ".sst"]

/-- `parseID`: asserts the extension, then parses the base name with its first occurrence
of the extension removed. -/
def parseID (filepath expectedExt : String) : Except Err ℕ := do
  assertTrue (Path.ext filepath == expectedExt) "invalid wal file"
  let base := Path.base filepath
  let idStr := Strings.replace base expectedExt ""
  match Strconv.parseUint idStr with
  | .ok id => pure id
  | .error _ => throw .invalidDBState

/-- The callback `getWalSSTList` passes to `bucket.Iter`, run over the listed paths in turn:
a path that contains `.sst` is parsed, and its id kept when above the watermark. A panic in
`parseID` ends the listing; its error skips the path. -/
def walListLoop (walIDLastCompacted : ℕ) : List ℕ → List String → Except Err (List ℕ)
  | walList, [] => pure walList
  | walList, filepath :: rest =>
    if Strings.contains filepath ".sst" then
      match parseID filepath ".sst" with
      | .error (.panic msg) => throw (.panic msg)
      | .ok walID =>
        walListLoop walIDLastCompacted
          (if walID > walIDLastCompacted then walList ++ [walID] else walList) rest
      | .error _ => walListLoop walIDLastCompacted walList rest
    else walListLoop walIDLastCompacted walList rest

/-- `getWalSSTList`: `iter` is the bucket's recursive listing of a directory, which may
fail. -/
def getWalSSTList (ts : TableStore) (iter : String → Except Err (List String))
    (walIDLastCompacted : ℕ) : Except Err (List ℕ) :=
  match iter (Path.join [ts.rootPath, ts.walPath]) with
  | .error _ => throw .objectStore
  | .ok paths => do
    let walList ← walListLoop walIDLastCompacted [] paths
    pure (slicesSort walList)

/-- Everything `parseID` can do with the extension `.sst`: panic on a path with another
extension, or return `ErrInvalidDBState`, or read a 64-bit id from a base name
`<digits>.sst`. -/
lemma parseID_cases (filepath : String) :
    (Path.ext filepath ≠ ".sst" ∧ parseID filepath ".sst" = .error (.panic "invalid wal file")) ∨
    (Path.ext filepath = ".sst" ∧ (parseID filepath ".sst" = .error .invalidDBState ∨
      ∃ n, parseID filepath ".sst" = .ok n ∧ IsWalName (Path.base filepath) n ∧ n < 2 ^ 64)) := by
  by_cases hext : Path.ext filepath = ".sst"
  · refine .inr ⟨hext, ?_⟩
    simp only [parseID, hext, beq_self_eq_true, assertTrue_true, except_ok_bind]
    cases hp : Strconv.parseUint (Strings.replace (Path.base filepath) ".sst" "") with
    | error e => exact .inl rfl
    | ok n =>
      refine .inr ⟨n, rfl, ?_⟩
      obtain ⟨hne, hd, hv, hlt⟩ := (Strconv.parseUint_eq_ok_iff _ _).mp hp
      obtain ⟨q, hq⟩ := Path.ext_suffix filepath
      have hbase := Path.base_append q ".sst".data (by decide) (by decide)
      rw [hext] at hq
      rw [show (⟨q ++ ".sst".data⟩ : String) = filepath from String.ext hq] at hbase
      have hrep : (Strings.replace (Path.base filepath) ".sst" "").data =
          Strings.replaceFirst ".sst".data [] ((q.reverse.takeWhile (· != '/')).reverse ++
            ".sst".data) := by
        rw [← hbase]; rfl
      have hr : Strings.replaceFirst ".sst".data [] ((q.reverse.takeWhile (· != '/')).reverse ++
          ".sst".data) = (q.reverse.takeWhile (· != '/')).reverse :=
        Strings.replaceFirst_remove_last (t := 't') rfl fun ht =>
          absurd (hd _ (hrep ▸ ht)) (by decide)
      rw [← hrep] at hr
      exact ⟨⟨_, hne, hd, String.ext (by rw [hbase, hr]), hv⟩, hlt⟩
  · exact .inl ⟨hext, by simp [parseID, hext, assertTrue]⟩

/-- One turn of the listing loop: a panic on a path that contains `.sst` without that
extension, or a continuation that keeps at most the path's id, above the watermark and read
from a base name `<digits>.sst`. -/
lemma walListLoop_cons (c : ℕ) (acc : List ℕ) (p : String) (rest : List String) :
    (Strings.contains p ".sst" ∧ Path.ext p ≠ ".sst" ∧
      walListLoop c acc (p :: rest) = .error (.panic "invalid wal file")) ∨
    ((Strings.contains p ".sst" → Path.ext p = ".sst") ∧ ∃ k,
      walListLoop c acc (p :: rest) = walListLoop c (acc ++ k) rest ∧
        ∀ n ∈ k, c < n ∧ n < 2 ^ 64 ∧ IsWalName (Path.base p) n) := by
  by_cases hc : Strings.contains p ".sst"
  · rcases parseID_cases p with ⟨hext, hp⟩ | ⟨hext, hp | ⟨n, hp, hname, hlt⟩⟩
    · exact .inl ⟨hc, hext, by simp [walListLoop, hc, hp]⟩
    · exact .inr ⟨fun _ => hext, [], by simp [walListLoop, hc, hp], by simp⟩
    · refine .inr ⟨fun _ => hext, if c < n then [n] else [], ?_, ?_⟩
      · simp only [walListLoop, hc, hp, if_true]
        split_ifs <;> simp
      · split_ifs with hcn
        · exact fun m hm => List.mem_singleton.mp hm ▸ ⟨hcn, hlt, hname⟩
        · simp
  · exact .inr ⟨fun h => absurd h hc, [], by simp [walListLoop, hc], by simp⟩

/-- The listing loop panics exactly when a listed path contains `.sst` without having that
extension; otherwise it appends the ids above the watermark that it reads from base names
`<digits>.sst`. -/
lemma walListLoop_spec (c : ℕ) (acc : List ℕ) (paths : List String) :
    ((∃ p ∈ paths, Strings.contains p ".sst" ∧ Path.ext p ≠ ".sst") ∧
      walListLoop c acc paths = .error (.panic "invalid wal file")) ∨
    ((∀ p ∈ paths, Strings.contains p ".sst" → Path.ext p = ".sst") ∧
      ∃ new, walListLoop c acc paths = .ok (acc ++ new) ∧
        ∀ n ∈ new, c < n ∧ n < 2 ^ 64 ∧ ∃ p ∈ paths, IsWalName (Path.base p) n) := by
  induction paths generalizing acc with
  | nil => exact .inr ⟨by simp, [], by simp [walListLoop], by simp⟩
  | cons p rest ih =>
    rcases walListLoop_cons c acc p rest with ⟨hc, hext, h⟩ | ⟨hok, k, h, hk⟩
    · exact .inl ⟨⟨p, List.mem_cons_self p rest, hc, hext⟩, h⟩
    · rw [h]
      rcases ih (acc ++ k) with ⟨⟨q, hq, hqc, hqext⟩, h'⟩ | ⟨hall, new, h', hnew⟩
      · exact .inl ⟨⟨q, List.mem_cons_of_mem p hq, hqc, hqext⟩, h'⟩
      · refine .inr ⟨List.forall_mem_cons.mpr ⟨hok, hall⟩, k ++ new, by simp [h'], fun n hn => ?_⟩
        rcases List.mem_append.mp hn with hn | hn
        · obtain ⟨h1, h2, h3⟩ := hk n hn
          exact ⟨h1, h2, p, List.mem_cons_self p rest, h3⟩
        · obtain ⟨h1, h2, q, hq, h3⟩ := hnew n hn
          exact ⟨h1, h2, q, List.mem_cons_of_mem p hq, h3⟩

/-- Everything `getWalSSTList` can do: fail when the listing fails, panic on a path containing
`.sst` without that extension, or return the WAL ids above the watermark, ascending. -/
theorem getWalSSTList_spec (ts : TableStore) (iter : String → Except Err (List String))
    (c : ℕ) :
    match iter (Path.join [ts.rootPath, ts.walPath]) with
    | .error _ => ts.getWalSSTList iter c = .error .objectStore
    | .ok paths =>
      ((∃ p ∈ paths, Strings.contains p ".sst" ∧ Path.ext p ≠ ".sst") ∧
        ts.getWalSSTList iter c = .error (.panic "invalid wal file")) ∨
      ((∀ p ∈ paths, Strings.contains p ".sst" → Path.ext p = ".sst") ∧
        ∃ l, ts.getWalSSTList iter c = .ok l ∧ l.Sorted (· ≤ ·) ∧
          ∀ n ∈ l, c < n ∧ n < 2 ^ 64 ∧ ∃ p ∈ paths, IsWalName (Path.base p) n) := by
  cases hiter : iter (Path.join [ts.rootPath, ts.walPath]) with
  | error e => simp [getWalSSTList, hiter]
  | ok paths =>
    rcases walListLoop_spec c [] paths with ⟨hbad, h⟩ | ⟨hall, new, h, hnew⟩
    · exact .inl ⟨hbad, by simp [getWalSSTList, hiter, h]⟩
    · exact .inr ⟨hall, _, by simp [getWalSSTList, hiter, h], slicesSort_sorted new,
        fun n hn => hnew n (mem_slicesSort.mp hn)⟩

lemma plainElem_walName {d : List Char} (hd : ∀ c ∈ d, c.isDigit) :
    Path.PlainElem (d ++ ".sst".data) := by
  have hsst : ".sst".data = ['.', 's', 's', 't'] := rfl
  refine ⟨fun h => ?_, by simp [hsst], fun h => ?_, fun h => ?_⟩
  · rcases List.mem_append.mp h with h | h
    · exact absurd (hd _ h) (by decide)
    · exact absurd h (by decide)
  all_goals have := congrArg List.length h; simp [hsst] at this

/-- The object of WAL SST `n` is named `<n>.sst` as its last element. -/
lemma sstPath_wal_endsWithElem (root : String) (n : ℕ) :
    Path.EndsWithElem ((newTableStore root).sstPath (newIDWal n)).data
      ((toString n).data ++ ".sst".data) :=
  Path.join_endsWithElem root "wal" (by decide) (plainElem_walName (Strconv.toString_digits n).2)

lemma contains_sstPath_wal (root : String) (n : ℕ) :
    Strings.contains ((newTableStore root).sstPath (newIDWal n)) ".sst" = true := by
  obtain ⟨pre, hpre⟩ := (sstPath_wal_endsWithElem root n).suffix
  rw [show (newTableStore root).sstPath (newIDWal n) = ⟨(pre ++ (toString n).data) ++ ".sst".data⟩
    from String.ext (by simp [← hpre])]
  exact Strings.contains_append _ _

/-- `parseID` reads back the id of every WAL SST name `sstPath` builds. -/
lemma parseID_sstPath_wal (root : String) {n : ℕ} (h : n < 2 ^ 64) :
    parseID ((newTableStore root).sstPath (newIDWal n)) ".sst" = .ok n := by
  have hE := sstPath_wal_endsWithElem root n
  obtain ⟨hslash, hne, -⟩ := plainElem_walName (Strconv.toString_digits n).2
  obtain ⟨pre, hpre⟩ := hE.suffix
  have hext : Path.ext ((newTableStore root).sstPath (newIDWal n)) = ".sst" := by
    rw [show (newTableStore root).sstPath (newIDWal n) =
      ⟨(pre ++ (toString n).data) ++ '.' :: ['s', 's', 't']⟩ from String.ext (by simp [← hpre])]
    exact Path.ext_append_dot _ _ (by decide)
  have hdot : '.' ∉ (toString n).data := fun h => absurd ((Strconv.toString_digits n).2 _ h) (by decide)
  have hrep : Strings.replace ⟨(toString n).data ++ ".sst".data⟩ ".sst" "" = toString n :=
    String.ext ((Strings.replaceFirst_append ".sst".data [] _ rfl hdot).trans (List.append_nil _))
  simp only [parseID, hext, beq_self_eq_true, assertTrue_true, except_ok_bind,
    Path.base_of_endsWithElem hE hslash hne, hrep, Strconv.parseUint_toString n h]
  rfl

lemma walListLoop_sstPaths (root : String) (c : ℕ) (acc : List ℕ) {S : List ℕ}
    (h64 : ∀ n ∈ S, n < 2 ^ 64) :
    walListLoop c acc (S.map fun n => (newTableStore root).sstPath (newIDWal n)) =
      .ok (acc ++ S.filter (c < ·)) := by
  induction S generalizing acc with
  | nil => simp [walListLoop]
  | cons n S ih =>
    have hS := fun m hm => h64 m (List.mem_cons_of_mem n hm)
    simp only [List.map_cons, walListLoop, contains_sstPath_wal, if_true,
      parseID_sstPath_wal root (h64 n (List.mem_cons_self n S)), List.filter_cons]
    by_cases hcn : c < n <;> simp [hcn, ih _ hS]

/-- On a WAL directory that holds exactly the WAL SSTs of a set of 64-bit ids, in any order,
`getWalSSTList` returns the ids above the watermark in ascending order. -/
theorem getWalSSTList_enumerates (root : String) (c : ℕ) {S : List ℕ} (hS : S.Nodup)
    (h64 : ∀ n ∈ S, n < 2 ^ 64) {iter : String → Except Err (List String)}
    (hiter : iter (Path.join [root, "wal"]) =
      .ok (S.map fun n => (newTableStore root).sstPath (newIDWal n))) :
    ∃ l, (newTableStore root).getWalSSTList iter c = .ok l ∧ l.Sorted (· < ·) ∧
      ∀ n, n ∈ l ↔ n ∈ S ∧ c < n := by
  refine ⟨slicesSort (S.filter (c < ·)), ?_, ?_, fun n => by simp⟩
  · have hiter' : iter (Path.join [(newTableStore root).rootPath, (newTableStore root).walPath]) =
        _ := hiter
    simp [getWalSSTList, hiter', walListLoop_sstPaths root c [] h64]
  · exact (slicesSort_sorted _).lt_of_le ((slicesSort_perm _).nodup_iff.mpr (hS.filter _))

theorem getWalSSTList_enumerates_three_wals :
    [3, 1, 2].Nodup ∧ (∀ n ∈ [3, 1, 2], n < 2 ^ 64) ∧
      ∃ l, (newTableStore "").getWalSSTList
          (fun _ => .ok ([3, 1, 2].map fun n => (newTableStore "").sstPath (newIDWal n))) 1 = .ok l ∧
        l.Sorted (· < ·) ∧ ∀ n, n ∈ l ↔ n ∈ [3, 1, 2] ∧ 1 < n :=
  ⟨by decide, by decide, getWalSSTList_enumerates "" 1 (by decide) (by decide) rfl⟩

/-- A listing under a root with one object whose name contains `.sst` but ends in `.tmp`. -/
theorem getWalSSTList_tmp_object_panics :
    (newTableStore "").getWalSSTList (fun _ => .ok ["wal/7.sst.tmp"]) 0 =
      .error (.panic "invalid wal file") := by
  rfl

/-- `WriteSST(id, encodedSST)`: the blocks `Blocks.At(0 .. Len-1)` concatenated and uploaded
to the SST's path; on success the filter is cached and the handle returned. `upload` is the
bucket's `Upload`, which may fail. -/
def writeSST (ts : TableStore) (upload : String → Bytes → Except Err Unit) (id : ID)
    (encodedSST : EncodedTable) : Except Err (SSTWrite × Handle) :=
  let sstPath := ts.sstPath id
  let blocksData := encodedSST.blocks.foldl (· ++ ·) []
  match upload sstPath blocksData with
  | .error _ => throw .objectStore
  | .ok () => pure (⟨sstPath, blocksData, encodedSST.bloom⟩, ⟨id, encodedSST.info⟩)

/-- `TableWriter(sstID)`. -/
def tableWriter (sstID : ID) : EncodedSSTableWriter := ⟨sstID, Builder.new, [], 0⟩

end TableStore

namespace EncodedSSTableWriter

variable (codec : BlockCodec)

/-- The loop of `Add` that moves every block the builder has finished into the buffer. -/
def drainBlocks (w : EncodedSSTableWriter) : EncodedSSTableWriter :=
  match h : w.builder.nextBlock codec with
  | none => w
  | some (block, b) =>
    drainBlocks ⟨w.sstID, b, w.buffer ++ block, w.blocksWritten + 1⟩
termination_by (codec.finished w.builder.adds).length - w.builder.taken
decreasing_by
  obtain ⟨hlt, rfl⟩ := Builder.nextBlock_eq_some h
  simp only
  omega

/-- `Add(key, value)`. -/
def add (w : EncodedSSTableWriter) (key : Bytes) (value : Option Bytes) :
    Except Err EncodedSSTableWriter := do
  let b ← w.builder.add codec key value
  pure (drainBlocks codec { w with builder := b })

/-- `Close()`: builds the table, appends its remaining blocks to the buffer, uploads the
result to the SST's path, and caches the filter. -/
def close (ts : TableStore) (upload : String → Bytes → Except Err Unit)
    (w : EncodedSSTableWriter) : Except Err (SSTWrite × Handle) := do
  let encodedSST ← w.builder.build codec
  let blocksData := encodedSST.blocks.foldl (· ++ ·) w.buffer
  let sstPath := ts.sstPath w.sstID
  match upload sstPath blocksData with
  | .error _ => throw .objectStore
  | .ok () => pure (⟨sstPath, blocksData, encodedSST.bloom⟩, ⟨w.sstID, encodedSST.info⟩)

/-- The adds of a whole sequence, stopping at the first that fails. -/
def addAll (w : EncodedSSTableWriter) : List (Bytes × Option Bytes) → Except Err EncodedSSTableWriter
  | [] => pure w
  | (key, value) :: rest => do
    let w' ← w.add codec key value
    addAll w' rest

/-- The buffer holds, in order, the finished blocks the builder has handed out. -/
def Synced (w : EncodedSSTableWriter) : Prop :=
  w.builder.taken ≤ (codec.finished w.builder.adds).length ∧
    w.buffer = ((codec.finished w.builder.adds).take w.builder.taken).flatten

variable {codec}

/-- The drain loop hands out the finished blocks from the first not yet taken. -/
lemma drainBlocks_eq (w : EncodedSSTableWriter)
    (h : w.builder.taken ≤ (codec.finished w.builder.adds).length) :
    drainBlocks codec w = { w with
      builder := ⟨w.builder.adds, (codec.finished w.builder.adds).length⟩,
      buffer := w.buffer ++ ((codec.finished w.builder.adds).drop w.builder.taken).flatten,
      blocksWritten := w.blocksWritten + ((codec.finished w.builder.adds).length - w.builder.taken) } := by
  induction w using drainBlocks.induct codec with
  | case1 w hnone =>
    rw [drainBlocks, hnone]
    have hle := Builder.nextBlock_eq_none.mp hnone
    obtain ⟨sstID, ⟨adds, taken⟩, buffer, n⟩ := w
    simp only at h hle ⊢
    rw [List.drop_eq_nil_of_le hle, show taken = (codec.finished adds).length by omega]
    simp
  | case2 w block b hsome ih =>
    obtain ⟨hlt, rfl⟩ := Builder.nextBlock_eq_some hsome
    rw [drainBlocks, hsome]
    simp only at ih ⊢
    rw [ih (by omega)]
    have hget : (codec.finished w.builder.adds)[w.builder.taken]? = some block := by
      simpa [Builder.nextBlock] using hsome
    rw [List.drop_eq_getElem_cons hlt, (List.getElem?_eq_some_iff.mp hget).2]
    simp only [List.flatten_cons, List.append_assoc, EncodedSSTableWriter.mk.injEq, true_and]
    omega

/-- `Add` keeps every finished block moved into the buffer. -/
lemma add_synced {w w' : EncodedSSTableWriter} {key : Bytes} {value : Option Bytes}
    (hw : Synced codec w) (h : w.add codec key value = .ok w') :
    w'.builder.adds = w.builder.adds ++ [(key, value)] ∧ w'.sstID = w.sstID ∧ Synced codec w' := by
  obtain ⟨b, hb, hw'⟩ := except_bind_eq_ok.mp h
  obtain ⟨-, rfl⟩ := Builder.add_eq_ok hb
  cases hw'
  obtain ⟨rest, hrest⟩ := codec.finished_prefix w.builder.adds key value
  have hlen : w.builder.taken ≤ (codec.finished (w.builder.adds ++ [(key, value)])).length := by
    rw [← hrest, List.length_append]; exact hw.1.trans (Nat.le_add_right _ _)
  rw [drainBlocks_eq ⟨w.sstID, ⟨w.builder.adds ++ [(key, value)], w.builder.taken⟩, w.buffer,
    w.blocksWritten⟩ hlen]
  refine ⟨rfl, rfl, le_rfl, ?_⟩
  simp only [hw.2, List.take_length, ← List.flatten_append]
  rw [← hrest, ← List.take_append_of_le_length hw.1, List.take_append_drop]

/-- `Add` fails exactly when the builder's add fails. -/
lemma add_eq_error {w : EncodedSSTableWriter} {key : Bytes} {value : Option Bytes} {e : Err} :
    w.add codec key value = .error e ↔ w.builder.add codec key value = .error e := by
  unfold add
  cases w.builder.add codec key value <;> simp

/-- The streamed write after some adds equals the batch write after the same adds. -/
lemma addAll_close_eq (ts : TableStore) (upload : String → Bytes → Except Err Unit)
    (adds : List (Bytes × Option Bytes)) {w : EncodedSSTableWriter} {b : Builder}
    (hw : Synced codec w) (hb : b = ⟨w.builder.adds, 0⟩) :
    (do let w' ← w.addAll codec adds; w'.close codec ts upload) =
      (do let b' ← b.addAll codec adds; let t ← b'.build codec; ts.writeSST upload w.sstID t) := by
  induction adds generalizing w b with
  | nil =>
    subst hb
    simp only [addAll, Builder.addAll, except_pure, except_ok_bind, close, Builder.build]
    cases ht : codec.build w.builder.adds with
    | error e => rfl
    | ok t =>
      obtain ⟨rest, hrest⟩ := codec.finished_built _ _ ht
      have hdata : w.buffer ++ (t.blocks.drop w.builder.taken).flatten = t.blocks.flatten := by
        rw [hw.2, ← List.flatten_append, ← hrest, ← List.take_append_of_le_length hw.1,
          List.take_append_drop]
      simp only [Except.map, TableStore.writeSST, List.drop_zero, foldl_append_eq, hdata,
        List.nil_append, except_ok_bind, except_pure]
  | cons kv adds ih =>
    obtain ⟨key, value⟩ := kv
    subst hb
    simp only [addAll, Builder.addAll]
    cases hadd : w.add codec key value with
    | error e =>
      have hcheck := Builder.add_eq_error.mp (add_eq_error.mp hadd)
      have hbadd : Builder.add codec ⟨w.builder.adds, 0⟩ key value = .error e :=
        Builder.add_eq_error.mpr hcheck
      simp only [hadd, hbadd, except_error_bind]
    | ok w' =>
      obtain ⟨hadds, hid, hw'⟩ := add_synced hw hadd
      have hbadd : Builder.add codec ⟨w.builder.adds, 0⟩ key value = .ok ⟨w'.builder.adds, 0⟩ := by
        obtain ⟨b, hb, -⟩ := except_bind_eq_ok.mp hadd
        rw [hadds]
        simp [Builder.add, (Builder.add_eq_ok hb).1]
      simp only [except_ok_bind, hbadd]
      rw [← hid]
      exact ih hw' rfl

/-- `Written()`. -/
def written (w : EncodedSSTableWriter) : ℕ := w.blocksWritten

/-- After `Add` no finished block is left in the builder, and `Written()` has counted each
block it moved. -/
lemma add_drains {w w' : EncodedSSTableWriter} {key : Bytes} {value : Option Bytes}
    (hw : Synced codec w) (h : w.add codec key value = .ok w') :
    w'.builder.taken = (codec.finished w'.builder.adds).length ∧
      w'.blocksWritten + w.builder.taken = w.blocksWritten + w'.builder.taken := by
  obtain ⟨b, hb, hw'⟩ := except_bind_eq_ok.mp h
  obtain ⟨-, rfl⟩ := Builder.add_eq_ok hb
  cases hw'
  obtain ⟨rest, hrest⟩ := codec.finished_prefix w.builder.adds key value
  have hlen : w.builder.taken ≤ (codec.finished (w.builder.adds ++ [(key, value)])).length := by
    rw [← hrest, List.length_append]; exact hw.1.trans (Nat.le_add_right _ _)
  rw [drainBlocks_eq ⟨w.sstID, ⟨w.builder.adds ++ [(key, value)], w.builder.taken⟩, w.buffer,
    w.blocksWritten⟩ hlen]
  exact ⟨rfl, by simp only; omega⟩

/-- A run of adds keeps the buffer, the builder and the counter in step, and after a last add
the builder has no finished block left. -/
lemma addAll_drains {w w' : EncodedSSTableWriter} (adds : List (Bytes × Option Bytes))
    (hw : Synced codec w) (hc : w.blocksWritten = w.builder.taken)
    (h : w.addAll codec adds = .ok w') :
    Synced codec w' ∧ w'.blocksWritten = w'.builder.taken ∧ w'.builder.adds = w.builder.adds ++ adds ∧
      (adds ≠ [] → w'.builder.taken = (codec.finished w'.builder.adds).length) := by
  induction adds generalizing w with
  | nil => cases h; exact ⟨hw, hc, by simp, fun h => absurd rfl h⟩
  | cons kv adds ih =>
    obtain ⟨key, value⟩ := kv
    obtain ⟨w₁, h₁, h₂⟩ := except_bind_eq_ok.mp h
    obtain ⟨hadds, -, hs₁⟩ := add_synced hw h₁
    obtain ⟨hd₁, hc₁⟩ := add_drains hw h₁
    obtain ⟨hs, hc', hadds', hd⟩ := ih hs₁ (by omega) h₂
    refine ⟨hs, hc', by rw [hadds', hadds, List.append_assoc]; rfl, fun _ => ?_⟩
    cases adds with
    | nil => cases h₂; exact hd₁
    | cons _ _ => exact hd (List.cons_ne_nil _ _)

end EncodedSSTableWriter

/-- The block-by-block path: a writer for the id, the adds, then `Close`. -/
def streamedWrite (codec : BlockCodec) (ts : TableStore) (upload : String → Bytes → Except Err Unit)
    (id : ID) (adds : List (Bytes × Option Bytes)) : Except Err (SSTWrite × Handle) := do
  let w ← (TableStore.tableWriter id).addAll codec adds
  w.close codec ts upload

/-- The batch path: the same adds on a table builder, `Build`, then `WriteSST`. -/
def batchWrite (codec : BlockCodec) (ts : TableStore) (upload : String → Bytes → Except Err Unit)
    (id : ID) (adds : List (Bytes × Option Bytes)) : Except Err (SSTWrite × Handle) := do
  let b ← Builder.new.addAll codec adds
  let t ← b.build codec
  ts.writeSST upload id t

lemma Builder.addAll_eq_ok {codec : BlockCodec} {b b' : Builder}
    {adds : List (Bytes × Option Bytes)} (h : b.addAll codec adds = .ok b') :
    b' = ⟨b.adds ++ adds, b.taken⟩ := by
  induction adds generalizing b with
  | nil => cases h; simp
  | cons kv adds ih =>
    obtain ⟨b₁, h₁, h₂⟩ := except_bind_eq_ok.mp h
    obtain ⟨-, rfl⟩ := Builder.add_eq_ok h₁
    simpa using ih h₂

/-- Both ways of writing an SST upload the same bytes, cache the same filter and return the same
handle, or fail alike. -/
theorem streamedWrite_eq_batchWrite (codec : BlockCodec) (ts : TableStore)
    (upload : String → Bytes → Except Err Unit) (id : ID) (adds : List (Bytes × Option Bytes)) :
    streamedWrite codec ts upload id adds = batchWrite codec ts upload id adds ∧
      ∀ r, batchWrite codec ts upload id adds = .ok r →
        ∃ t, codec.build adds = .ok t ∧ r = (⟨ts.sstPath id, t.blocks.flatten, t.bloom⟩, ⟨id, t.info⟩) := by
  refine ⟨EncodedSSTableWriter.addAll_close_eq ts upload adds ⟨by simp [TableStore.tableWriter, Builder.new],
    by simp [TableStore.tableWriter, Builder.new]⟩ rfl, fun r h => ?_⟩
  obtain ⟨b, hb, h⟩ := except_bind_eq_ok.mp h
  obtain ⟨t, ht, h⟩ := except_bind_eq_ok.mp h
  obtain rfl := Builder.addAll_eq_ok hb
  cases hc : codec.build adds with
  | error e => simp [Builder.build, Builder.new, hc, Except.map] at ht
  | ok t' =>
    obtain rfl : t' = t := by simpa [Builder.build, Builder.new, hc, Except.map] using ht
    refine ⟨t', rfl, ?_⟩
    simp only [TableStore.writeSST, foldl_append_eq, List.nil_append] at h
    split at h
    · cases h
    · simpa using h.symm


/-- `Add` streams every block as soon as the builder finishes it. -/
theorem tableWriter_addAll_streams (codec : BlockCodec) (id : ID) (adds : List (Bytes × Option Bytes))
    {w : EncodedSSTableWriter} (h : (TableStore.tableWriter id).addAll codec adds = .ok w)
    (hne : adds ≠ []) :
    w.buffer = (codec.finished adds).flatten ∧ w.written = (codec.finished adds).length := by
  obtain ⟨hs, hc, hadds, hd⟩ := EncodedSSTableWriter.addAll_drains adds
    ⟨by simp [TableStore.tableWriter, Builder.new], by simp [TableStore.tableWriter, Builder.new]⟩ rfl h
  have hadds' : w.builder.adds = adds := by simpa [TableStore.tableWriter, Builder.new] using hadds
  have ht := hd hne
  rw [hadds'] at ht
  refine ⟨?_, ?_⟩
  · rw [hs.2, hadds', ht, List.take_length]
  · rw [EncodedSSTableWriter.written, hc, ht]

/-- A codec that finishes one block, the key, for every add. -/
def oneBlockPerAdd : BlockCodec where
  check _ _ _ := .ok ()
  finished adds := adds.map (·.1)
  build adds := .ok ⟨⟨[]⟩, none, adds.map (·.1)⟩
  finished_prefix adds key value := by simp only [List.map_append]; exact List.prefix_append _ _
  finished_built adds t h := by cases h; exact List.prefix_refl _

theorem tableWriter_addAll_streams_two_adds :
    ∃ w, (TableStore.tableWriter ⟨.compacted, "a"⟩).addAll oneBlockPerAdd
        [([1], none), ([2], some [7])] = .ok w ∧ w.buffer = [1, 2] ∧ w.written = 2 := by
  obtain ⟨w, hw⟩ : ∃ w, (TableStore.tableWriter ⟨.compacted, "a"⟩).addAll oneBlockPerAdd
      [([1], none), ([2], some [7])] = .ok w := ⟨_, rfl⟩
  obtain ⟨h₁, h₂⟩ := tableWriter_addAll_streams oneBlockPerAdd _ _ hw (List.cons_ne_nil _ _)
  exact ⟨w, hw, h₁, h₂⟩

end SlateDB
