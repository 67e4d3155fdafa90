import Mathlib.Data.List.Chain
import SlateDB.Go

/-! Sorted runs and the lookup of the one SST of a run that may hold a key. The compaction
package finds it with `sort.Search` over the first keys, the older slatedb package with a
linear scan; both return the last SST whose first key is at most the key. -/
namespace SlateDB

/-- The first keys of a list of SSTs. -/
def firstKeys (ssts : List Handle) : List Bytes := ssts.map (·.info.firstKey)

@[simp] lemma firstKeys_length (ssts : List Handle) : (firstKeys ssts).length = ssts.length :=
  List.length_map _ _

/-- `i` is the last index whose first key is at most `key`. -/
def IsFloorIndex (fks : List Bytes) (key : Bytes) (i : ℕ) : Prop :=
  ∃ h : i < fks.length, fks[i] ≤ key ∧ ∀ j (hj : j < fks.length), fks[j] ≤ key → j ≤ i

/-- Whether the first key at `m`, if any, lies above `key`: the test both lookups use. -/
def aboveKey (fks : List Bytes) (key : Bytes) (m : ℕ) : Bool := fks[m]?.all (key < ·)

/-- The tail `if index > 0 { return Some(index - 1) }` shared by both lookups. -/
def floorOfSplit (index : ℕ) : Option ℕ := if index > 0 then some (index - 1) else none

section Floor

variable {fks : List Bytes} {key : Bytes} {r : ℕ}

lemma aboveKey_of_lt {m : ℕ} (h : m < fks.length) : aboveKey fks key m = decide (key < fks[m]) := by
  simp [aboveKey, List.getElem?_eq_getElem h]

lemma aboveKey_firstKeys {ssts : List Handle} {m : ℕ} (h : m < ssts.length) :
    aboveKey (firstKeys ssts) key m = decide (key < ssts[m].info.firstKey) := by
  simp [aboveKey, firstKeys, List.getElem?_eq_getElem h]

/-- Sorted first keys make the test of both lookups monotone. -/
lemma aboveKey_mono (hs : fks.Sorted (· ≤ ·)) (a b : ℕ) (hab : a ≤ b) (hb : b < fks.length)
    (ha : aboveKey fks key a = true) : aboveKey fks key b = true := by
  rw [aboveKey_of_lt (by omega)] at ha
  rw [aboveKey_of_lt hb]
  rcases hab.lt_or_eq with hab | rfl
  · exact decide_eq_true ((of_decide_eq_true ha).trans_le
      (List.pairwise_iff_getElem.mp hs a b (by omega) hb hab))
  · exact ha

/-- A split point of the monotone test names the floor index, and none exactly when the
list is empty or starts above the key. -/
lemma floorOfSplit_spec (h : IsSplit (aboveKey fks key) fks.length r) :
    (∀ i, floorOfSplit r = some i ↔ IsFloorIndex fks key i) ∧
    (floorOfSplit r = none ↔ ∀ fk ∈ fks.head?, key < fk) := by
  obtain ⟨hrn, hlo, hhi⟩ := h
  have below : ∀ m (hm : m < fks.length), fks[m] ≤ key ↔ m < r := fun m hm => by
    constructor
    · intro hle; by_contra hge
      have := hhi m (by omega) hm; rw [aboveKey_of_lt hm] at this
      exact absurd hle (not_le.mpr (of_decide_eq_true this))
    · intro hlt; have := hlo m hlt; rw [aboveKey_of_lt hm] at this
      exact not_lt.mp (of_decide_eq_false this)
  constructor
  · intro i
    simp only [floorOfSplit, IsFloorIndex]
    constructor
    · intro hi
      split_ifs at hi with hr; cases hi
      exact ⟨by omega, (below _ _).mpr (by omega), fun j hj hle => by have := (below j hj).mp hle; omega⟩
    · rintro ⟨hi, hle, hmax⟩
      have h1 := (below i hi).mp hle
      by_cases hir : i + 1 < r
      · have := hmax (i + 1) (by omega) ((below _ (by omega)).mpr hir); omega
      · rw [if_pos (by omega)]; congr 1; omega
  · cases fks with
    | nil => simp [floorOfSplit, show r = 0 by simpa using hrn]
    | cons fk rest =>
      have h0 := below 0 (Nat.succ_pos _)
      simp only [floorOfSplit, List.head?_cons, Option.mem_def, Option.some.injEq,
        forall_eq', List.getElem_cons_zero] at h0 ⊢
      constructor
      · intro hr; split_ifs at hr; exact lt_of_not_le fun hle => by have := h0.mp hle; omega
      · intro hlt; rw [if_neg]; intro hr; exact absurd (h0.mpr hr) (not_le.mpr hlt)

end Floor

/-- One SST of a run: strictly ascending entries that begin at its non-empty first key. -/
structure SSTWellFormed (content : Handle → List RowEntry) (h : Handle) : Prop where
  ascending : KeysAscending (content h)
  startsAt : ((content h).map RowEntry.key).head? = some h.info.firstKey
  nonempty : h.info.firstKey ≠ []

/-- The sorted-run invariant over the contents of the SSTs: every SST is well formed, and
every key of an SST lies below the first key of the next one. -/
structure RunInvariant (content : Handle → List RowEntry) (ssts : List Handle) : Prop where
  wellFormed : ∀ h ∈ ssts, SSTWellFormed content h
  belowNext : ssts.Chain' fun a b => ∀ e ∈ content a, e.key < b.info.firstKey

instance (content : Handle → List RowEntry) (h : Handle) : Decidable (SSTWellFormed content h) :=
  decidable_of_iff (KeysAscending (content h) ∧
      ((content h).map RowEntry.key).head? = some h.info.firstKey ∧ h.info.firstKey ≠ [])
    ⟨fun ⟨a, b, c⟩ => ⟨a, b, c⟩, fun ⟨a, b, c⟩ => ⟨a, b, c⟩⟩

/-- `Chain'` decided by recursion on the list, so that `decide` can run it. -/
def decideChain {α : Type} (R : α → α → Prop) [DecidableRel R] : (l : List α) → Decidable (l.Chain' R)
  | [] => isTrue List.chain'_nil
  | [a] => isTrue (List.chain'_singleton a)
  | a :: b :: rest =>
    haveI := decideChain R (b :: rest)
    decidable_of_iff (R a b ∧ (b :: rest).Chain' R) List.chain'_cons.symm

instance (content : Handle → List RowEntry) (ssts : List Handle) :
    Decidable (RunInvariant content ssts) :=
  haveI := decideChain (fun a b => ∀ e ∈ content a, e.key < b.info.firstKey) ssts
  decidable_of_iff ((∀ h ∈ ssts, SSTWellFormed content h) ∧
      ssts.Chain' fun a b => ∀ e ∈ content a, e.key < b.info.firstKey)
    ⟨fun ⟨a, b⟩ => ⟨a, b⟩, fun ⟨a, b⟩ => ⟨a, b⟩⟩

section Invariant

variable {content : Handle → List RowEntry}

lemma SSTWellFormed.firstKey_le {h : Handle} (hw : SSTWellFormed content h) {e : RowEntry}
    (he : e ∈ content h) : h.info.firstKey ≤ e.key := by
  have hs := hw.ascending
  have hst := hw.startsAt
  unfold KeysAscending at hs
  cases hc : content h with
  | nil => simp [hc] at he
  | cons x xs =>
    simp only [hc, List.map_cons, List.head?_cons, Option.some.injEq] at hst
    rw [hc, List.mem_cons] at he
    rcases he with rfl | he
    · exact hst.ge
    · rw [hc, List.map_cons, List.sorted_cons] at hs
      exact hst ▸ (hs.1 _ (List.mem_map_of_mem _ he)).le

lemma SSTWellFormed.firstKey_mem {h : Handle} (hw : SSTWellFormed content h) :
    ∃ e ∈ content h, e.key = h.info.firstKey := by
  have hst := hw.startsAt
  cases hc : content h with
  | nil => simp [hc] at hst
  | cons x xs => simp only [hc, List.map_cons, List.head?_cons, Option.some.injEq] at hst; exact ⟨x, by simp, hst⟩

lemma RunInvariant.tail {h : Handle} {ssts : List Handle} (hinv : RunInvariant content (h :: ssts)) :
    RunInvariant content ssts :=
  ⟨fun h' hh' => hinv.wellFormed h' (List.mem_cons_of_mem _ hh'), List.Chain'.tail hinv.belowNext⟩

/-- Every key of an SST lies below the first key of every later SST of the run. -/
lemma RunInvariant.pairwise {ssts : List Handle} (hinv : RunInvariant content ssts) :
    ssts.Pairwise fun a b => ∀ e ∈ content a, e.key < b.info.firstKey := by
  induction ssts with
  | nil => exact List.Pairwise.nil
  | cons a rest ih =>
    have ht := ih hinv.tail
    refine List.Pairwise.cons (fun c hc e he => ?_) ht
    cases rest with
    | nil => simp at hc
    | cons b rest =>
      have hab := (List.chain'_cons.mp hinv.belowNext).1
      rcases List.mem_cons.mp hc with rfl | hc
      · exact hab e he
      · obtain ⟨x, hx, hxk⟩ := (hinv.wellFormed b (by simp)).firstKey_mem
        exact (hab e he).trans (hxk ▸ List.rel_of_pairwise_cons ht hc x hx)

lemma RunInvariant.firstKeys_ascending {ssts : List Handle} (hinv : RunInvariant content ssts) :
    (firstKeys ssts).Sorted (· < ·) := by
  rw [firstKeys, List.Sorted, List.pairwise_map]
  refine hinv.pairwise.imp_of_mem fun {a b} ha _ hab => ?_
  obtain ⟨x, hx, hxk⟩ := (hinv.wellFormed a ha).firstKey_mem
  exact hxk ▸ hab x hx

end Invariant

/-- A key held by an SST of a well-formed run makes that SST's index the floor index. -/
lemma RunInvariant.isFloorIndex_of_mem {content : Handle → List RowEntry} {ssts : List Handle}
    (hinv : RunInvariant content ssts) {j : ℕ} (hj : j < ssts.length) {e : RowEntry}
    (he : e ∈ content ssts[j]) : IsFloorIndex (firstKeys ssts) e.key j := by
  refine ⟨by simpa using hj, by simpa [firstKeys] using (hinv.wellFormed _ (List.getElem_mem hj)).firstKey_le he,
    fun j' hj' hle => le_of_not_lt fun hlt => ?_⟩
  have hj'' : j' < ssts.length := by simpa using hj'
  have := List.pairwise_iff_getElem.mp hinv.pairwise j j' hj hj'' hlt e he
  simp only [firstKeys, List.getElem_map] at hle
  exact absurd hle (not_le.mpr this)

lemma RunInvariant.firstKeys_sorted {content : Handle → List RowEntry} {ssts : List Handle}
    (hinv : RunInvariant content ssts) : (firstKeys ssts).Sorted (· ≤ ·) :=
  hinv.firstKeys_ascending.imp le_of_lt

lemma floorOfSplit_eq_none_iff {ssts : List Handle} {key : Bytes} {r : ℕ}
    (h : IsSplit (aboveKey (firstKeys ssts) key) ssts.length r) :
    floorOfSplit r = none ↔ ssts = [] ∨ ∃ sst rest, ssts = sst :: rest ∧ key < sst.info.firstKey := by
  rw [(@floorOfSplit_spec (firstKeys ssts) key r (by simpa using h)).2]
  cases ssts with
  | nil => exact ⟨fun _ => .inl rfl, fun _ _ h => nomatch h⟩
  | cons sst rest =>
    refine ⟨fun h => .inr ⟨sst, rest, rfl, h _ rfl⟩, ?_⟩
    rintro (h | ⟨a, b, hab, hk⟩) fk hfk
    · cases h
    · cases hab
      cases hfk
      exact hk

namespace Compaction

/-- `compaction.SortedRun`. -/
structure SortedRun where
  id : ℕ
  sstList : List Handle
  deriving DecidableEq, Repr

/-- The test that `indexOfSSTWithKey` hands to `sort.Search`: it asserts that the SST at `i`
has a first key and asks whether that key lies above `key`. -/
def sstAboveKey (sstList : List Handle) (key : Bytes) (i : ℕ) : Except Err Bool := do
  let sst ← index sstList i
  assertTrue (sst.info.firstKey.length != 0) "sst must have first key"
  pure (decide (bytesCompare sst.info.firstKey key > 0))

/-- `SortedRun.indexOfSSTWithKey`. -/
def SortedRun.indexOfSSTWithKey (s : SortedRun) (key : Bytes) : Except Err (Option ℕ) := do
  let index ← search s.sstList.length (sstAboveKey s.sstList key)
  pure (floorOfSplit index)

/-- `SortedRun.SstWithKey`. -/
def SortedRun.sstWithKey (s : SortedRun) (key : Bytes) : Except Err (Option Handle) := do
  match ← s.indexOfSSTWithKey key with
  | some index => some <$> SlateDB.index s.sstList index
  | none => pure none

lemma sstAboveKey_of_lt {sstList : List Handle} {key : Bytes}
    (hne : ∀ h ∈ sstList, h.info.firstKey ≠ []) (m : ℕ) (hm : m < sstList.length) :
    sstAboveKey sstList key m = .ok (aboveKey (firstKeys sstList) key m) := by
  have hfk : (sstList[m].info.firstKey.length != 0) = true := by
    simpa using hne _ (List.getElem_mem hm)
  rw [aboveKey_firstKeys hm]
  simp only [sstAboveKey, index_of_lt _ hm, hfk, except_ok_bind, assertTrue_true, except_pure,
    gt_iff_lt, bytesCompare_pos]

/-- With non-empty, non-decreasing first keys the search never panics and stops at the
split point of the test. -/
lemma SortedRun.indexOfSSTWithKey_split (s : SortedRun) (key : Bytes)
    (hne : ∀ h ∈ s.sstList, h.info.firstKey ≠ []) (hsorted : (firstKeys s.sstList).Sorted (· ≤ ·)) :
    ∃ r, IsSplit (aboveKey (firstKeys s.sstList) key) s.sstList.length r ∧
      s.indexOfSSTWithKey key = .ok (floorOfSplit r) := by
  obtain ⟨r, hr, hsplit⟩ := search_isSplit (sstAboveKey_of_lt hne)
    (fun a b hab hb => aboveKey_mono hsorted a b hab (by simpa using hb))
  exact ⟨r, hsplit, by simp [SortedRun.indexOfSSTWithKey, hr]⟩

/-- On a run with non-empty, non-decreasing first keys, the binary search returns the last SST
whose first key is at most the key, without tripping its assertion. -/
theorem indexOfSSTWithKey_floor (s : SortedRun) (key : Bytes)
    (hne : ∀ h ∈ s.sstList, h.info.firstKey ≠ [])
    (hsorted : (firstKeys s.sstList).Sorted (· ≤ ·)) :
    ∃ r, s.indexOfSSTWithKey key = .ok r ∧
      (∀ i, r = some i ↔ IsFloorIndex (firstKeys s.sstList) key i) ∧
      (r = none ↔ s.sstList = [] ∨ ∃ sst rest, s.sstList = sst :: rest ∧ key < sst.info.firstKey) ∧
      s.sstWithKey key = .ok (r.bind (s.sstList[·]?)) ∧
      ∀ content, RunInvariant content s.sstList → ∀ j (hj : j < s.sstList.length),
        key ∈ (content s.sstList[j]).map RowEntry.key → r = some j := by
  obtain ⟨r, hsplit, hr⟩ := s.indexOfSSTWithKey_split key hne hsorted
  have hspec := @floorOfSplit_spec (firstKeys s.sstList) key r (by simpa using hsplit)
  refine ⟨_, hr, hspec.1, floorOfSplit_eq_none_iff hsplit, ?_, fun content hinv j hj hk => ?_⟩
  · cases hf : floorOfSplit r with
    | none => simp [SortedRun.sstWithKey, hr, hf]
    | some i =>
      obtain ⟨hi, -⟩ := (hspec.1 i).mp hf
      have hi' : i < s.sstList.length := by simpa using hi
      simp [SortedRun.sstWithKey, hr, hf, index_of_lt _ hi', List.getElem?_eq_getElem hi']
  · obtain ⟨e, he, rfl⟩ := List.mem_map.mp hk
    exact (hspec.1 j).mpr (hinv.isFloorIndex_of_mem hj he)

/-- A run of two SSTs starting at keys `[1]` and `[3]`. -/
def twoSSTRun : SortedRun := ⟨0, [⟨⟨.compacted, "a"⟩, ⟨[1]⟩⟩, ⟨⟨.compacted, "b"⟩, ⟨[3]⟩⟩]⟩

theorem indexOfSSTWithKey_floor_two_ssts :
    (∀ h ∈ twoSSTRun.sstList, h.info.firstKey ≠ []) ∧
    (firstKeys twoSSTRun.sstList).Sorted (· ≤ ·) ∧
    ∃ r, twoSSTRun.indexOfSSTWithKey [2] = .ok r ∧
      (∀ i, r = some i ↔ IsFloorIndex (firstKeys twoSSTRun.sstList) [2] i) ∧
      (r = none ↔ twoSSTRun.sstList = [] ∨
        ∃ sst rest, twoSSTRun.sstList = sst :: rest ∧ [2] < sst.info.firstKey) ∧
      twoSSTRun.sstWithKey [2] = .ok (r.bind (twoSSTRun.sstList[·]?)) ∧
      ∀ content, RunInvariant content twoSSTRun.sstList → ∀ j (hj : j < twoSSTRun.sstList.length),
        [2] ∈ (content twoSSTRun.sstList[j]).map RowEntry.key → r = some j :=
  ⟨by decide, by decide, indexOfSSTWithKey_floor twoSSTRun [2] (by decide) (by decide)⟩

end Compaction

/-- `slatedb.SortedRun`, of the older package. -/
structure SortedRun where
  id : ℕ
  sstList : List Handle
  deriving DecidableEq, Repr

/-- The `for i, sst := range s.sstList` loop of the older `indexOfSSTWithKey`, at position `i`
with the SSTs not yet visited. It returns the `index` the loop leaves: `i` at a first key
above the key, `i + 1` at the last SST, and its initial `0` if it never breaks. -/
def indexScan (key : Bytes) (n : ℕ) : ℕ → List Handle → ℕ
  | _, [] => 0
  | i, sst :: rest =>
    if bytesCompare sst.info.firstKey key > 0 then i
    else if i = n - 1 then i + 1
    else indexScan key n (i + 1) rest

/-- `SortedRun.indexOfSSTWithKey` of the older package. -/
def SortedRun.indexOfSSTWithKey (s : SortedRun) (key : Bytes) : Option ℕ :=
  floorOfSplit (indexScan key s.sstList.length 0 s.sstList)

/-- `SortedRun.sstWithKey` of the older package. -/
def SortedRun.sstWithKey (s : SortedRun) (key : Bytes) : Except Err (Option Handle) :=
  match s.indexOfSSTWithKey key with
  | some index => some <$> SlateDB.index s.sstList index
  | none => pure none

/-- The loop invariant of the linear scan: every visited first key is at most the key. -/
lemma indexScan_isSplit {l : List Handle} {key : Bytes} (hs : (firstKeys l).Sorted (· ≤ ·))
    (i : ℕ) (hi : i < l.length) (hlo : ∀ m < i, aboveKey (firstKeys l) key m = false) :
    IsSplit (aboveKey (firstKeys l) key) l.length (indexScan key l.length i (l.drop i)) := by
  have hm : aboveKey (firstKeys l) key i = decide (key < l[i].info.firstKey) := by
    rw [aboveKey_firstKeys hi]
  have hlo' (hab : aboveKey (firstKeys l) key i = false) : ∀ m < i + 1,
      aboveKey (firstKeys l) key m = false := fun m hm' =>
    if h : m < i then hlo m h else by rw [show m = i by omega]; exact hab
  rw [List.drop_eq_getElem_cons hi, indexScan]
  split_ifs with habove hlast
  · exact ⟨hi.le, hlo, fun m him hmn =>
      aboveKey_mono hs i m him (by simpa using hmn)
        (hm.trans (decide_eq_true (bytesCompare_pos.mp habove)))⟩
  · exact ⟨by omega, hlo' (hm.trans (decide_eq_false (mt bytesCompare_pos.mpr habove))),
      fun m hm1 hm2 => by omega⟩
  · exact indexScan_isSplit hs (i + 1) (by omega)
      (hlo' (hm.trans (decide_eq_false (mt bytesCompare_pos.mpr habove))))
termination_by l.length - i
decreasing_by omega

/-- On non-decreasing first keys the linear scan stops at the split point of the test. -/
lemma SortedRun.indexOfSSTWithKey_split (s : SortedRun) (key : Bytes)
    (hsorted : (firstKeys s.sstList).Sorted (· ≤ ·)) :
    ∃ r, IsSplit (aboveKey (firstKeys s.sstList) key) s.sstList.length r ∧
      s.indexOfSSTWithKey key = floorOfSplit r := by
  rcases s with ⟨id, _ | ⟨a, l⟩⟩
  · exact ⟨0, ⟨le_rfl, by simp, by simp⟩, rfl⟩
  · exact ⟨_, indexScan_isSplit hsorted 0 (by simp) (by simp), rfl⟩

/-- The older package's linear scan and the compaction package's binary search agree on every
run with non-empty, non-decreasing first keys. -/
theorem indexOfSSTWithKey_scan_eq_search (s : SortedRun) (c : Compaction.SortedRun)
    (hlist : c.sstList = s.sstList) (hne : ∀ h ∈ s.sstList, h.info.firstKey ≠ [])
    (hsorted : (firstKeys s.sstList).Sorted (· ≤ ·)) (key : Bytes) :
    c.indexOfSSTWithKey key = .ok (s.indexOfSSTWithKey key) ∧
      c.sstWithKey key = s.sstWithKey key := by
  obtain ⟨r, hr, hc⟩ := c.indexOfSSTWithKey_split key (hlist ▸ hne) (hlist ▸ hsorted)
  obtain ⟨r', hr', hs⟩ := s.indexOfSSTWithKey_split key hsorted
  rw [hlist] at hr
  have hidx : c.indexOfSSTWithKey key = .ok (s.indexOfSSTWithKey key) := by
    rw [hc, hs, hr.unique hr']
  refine ⟨hidx, ?_⟩
  simp only [Compaction.SortedRun.sstWithKey, SortedRun.sstWithKey, hidx, hlist, except_ok_bind]

/-- The key `[4]` lies above both first keys of `twoSSTRun`, so the scan leaves by its
last-element case. -/
theorem indexOfSSTWithKey_scan_eq_search_past_last :
    Compaction.twoSSTRun.sstList = (⟨0, Compaction.twoSSTRun.sstList⟩ : SortedRun).sstList ∧
      (∀ h ∈ Compaction.twoSSTRun.sstList, h.info.firstKey ≠ []) ∧
      (firstKeys Compaction.twoSSTRun.sstList).Sorted (· ≤ ·) ∧
      (⟨0, Compaction.twoSSTRun.sstList⟩ : SortedRun).indexOfSSTWithKey [4] = some 1 ∧
      Compaction.twoSSTRun.indexOfSSTWithKey [4] =
        .ok ((⟨0, Compaction.twoSSTRun.sstList⟩ : SortedRun).indexOfSSTWithKey [4]) ∧
      Compaction.twoSSTRun.sstWithKey [4] =
        (⟨0, Compaction.twoSSTRun.sstList⟩ : SortedRun).sstWithKey [4] :=
  ⟨rfl, by decide, by decide, rfl,
    indexOfSSTWithKey_scan_eq_search ⟨0, Compaction.twoSSTRun.sstList⟩ Compaction.twoSSTRun rfl
      (by decide) (by decide) [4]⟩

/-- An SST whose first key is empty. -/
def emptyFirstKeySST : Handle := ⟨⟨.compacted, "a"⟩, ⟨[]⟩⟩

/-- With an empty first key the two lookups part: the linear scan returns the SST, while
`sort.Search` probes it and trips the assertion of the compaction package. -/
theorem indexOfSSTWithKey_empty_first_key :
    (firstKeys [emptyFirstKeySST]).Sorted (· ≤ ·) ∧
      (⟨0, [emptyFirstKeySST]⟩ : SortedRun).indexOfSSTWithKey [1] = some 0 ∧
      (⟨0, [emptyFirstKeySST]⟩ : Compaction.SortedRun).indexOfSSTWithKey [1] =
        .error (.panic "sst must have first key") := by
  refine ⟨List.sorted_singleton _, rfl, ?_⟩
  simp only [Compaction.SortedRun.indexOfSSTWithKey, search]
  rw [searchLoop]
  rfl

end SlateDB
