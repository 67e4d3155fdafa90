import SlateDB.Types

/-! The pieces of the Go runtime and standard library that the modelled code calls:
panics (`assert.True`, `common.AssertTrue`, an index out of range), `bytes.Compare`,
the halving loop of `sort.Search` with its contract, and `slices.Sort`. -/
namespace SlateDB

/-- How a modelled call can fail: the `error` values the code returns, and a panic. -/
inductive Err
  /-- `common.ErrObjectStore`. -/
  | objectStore
  /-- `common.ErrInvalidDBState`. -/
  | invalidDBState
  /-- `internal.ErrAlreadyExists`: the manifest generation was written by someone else. -/
  | alreadyExists
  /-- Any other error, such as a failed read or iterator. -/
  | other (msg : String)
  /-- A panic, with its message. -/
  | panic (msg : String)
  deriving DecidableEq, Repr

/-- `assert.True(cond, msg)` / `common.AssertTrue(cond, msg)`: panics when `cond` fails. -/
def assertTrue (cond : Bool) (msg : String) : Except Err Unit :=
  if cond then pure () else throw (.panic msg)

/-- The slice index `s[i]`, which panics out of range. -/
def index {α : Type} (s : List α) (i : ℕ) : Except Err α :=
  match s[i]? with
  | some a => pure a
  | none => throw (.panic "index out of range")

section Except

variable {ε α β : Type}

@[simp] lemma except_pure (a : α) : (pure a : Except ε α) = .ok a := rfl
@[simp] lemma except_throw (e : ε) : (throw e : Except ε α) = .error e := rfl
@[simp] lemma except_ok_bind (a : α) (f : α → Except ε β) : (Except.ok a >>= f) = f a := rfl
@[simp] lemma except_error_bind (e : ε) (f : α → Except ε β) : (Except.error e >>= f) = .error e := rfl
@[simp] lemma except_map_ok (f : α → β) (a : α) : (f <$> Except.ok a : Except ε β) = .ok (f a) := rfl

lemma except_bind_eq_ok {x : Except ε α} {f : α → Except ε β} {r : β} :
    x >>= f = .ok r ↔ ∃ a, x = .ok a ∧ f a = .ok r := by
  cases x <;> simp

end Except

@[simp] lemma assertTrue_true (msg : String) : assertTrue true msg = .ok () := rfl

lemma index_of_lt {α : Type} (s : List α) {i : ℕ} (h : i < s.length) :
    index s i = .ok s[i] := by
  simp [index, List.getElem?_eq_getElem h]

/-- `bytes.Compare(a, b)`: `-1`, `0` or `+1` as `a` is below, equal to or above `b`. -/
def bytesCompare (a b : Bytes) : ℤ :=
  match compare a b with
  | .lt => -1
  | .eq => 0
  | .gt => 1

@[simp] lemma bytesCompare_pos {a b : Bytes} : 0 < bytesCompare a b ↔ b < a := by
  unfold bytesCompare
  rcases lt_trichotomy a b with h | rfl | h
  · simp [compare_lt_iff_lt.mpr h, h.not_lt]
  · simp [compare_eq_iff_eq.mpr rfl]
  · simp [compare_gt_iff_gt.mpr h, h]

/-- The loop of Go's `sort.Search`, on the interval `[i, j)`: `f` is called at the midpoint
`int(uint(i+j) >> 1)`, and a call to `f` may panic. -/
def searchLoop (f : ℕ → Except Err Bool) (i j : ℕ) : Except Err ℕ :=
  if i < j then do
    let b ← f ((i + j) / 2)
    if !b then searchLoop f ((i + j) / 2 + 1) j else searchLoop f i ((i + j) / 2)
  else pure i
termination_by j - i
decreasing_by all_goals omega

/-- `sort.Search(n, f)`. -/
def search (n : ℕ) (f : ℕ → Except Err Bool) : Except Err ℕ := searchLoop f 0 n

/-- `r` splits `[0, n)` into the indices failing `p`, below it, and those passing it. -/
def IsSplit (p : ℕ → Bool) (n r : ℕ) : Prop :=
  r ≤ n ∧ (∀ m < r, p m = false) ∧ ∀ m, r ≤ m → m < n → p m = true

section Search

variable {p : ℕ → Bool} {n : ℕ} {f : ℕ → Except Err Bool}

/-- A test has at most one split point on `[0, n)`. -/
lemma IsSplit.unique {r r' : ℕ} (h : IsSplit p n r) (h' : IsSplit p n r') : r = r' := by
  obtain ⟨hr, hlo, hhi⟩ := h
  obtain ⟨hr', hlo', hhi'⟩ := h'
  rcases Nat.lt_trichotomy r r' with hlt | heq | hlt
  · exact absurd (hlo' r hlt) (by rw [hhi r le_rfl (by omega)]; decide)
  · exact heq
  · exact absurd (hlo r' hlt) (by rw [hhi' r' le_rfl (by omega)]; decide)

/-- The loop invariant of `sort.Search`: below `i` the test fails and from `j` on it holds. -/
lemma searchLoop_isSplit (hf : ∀ m < n, f m = .ok (p m))
    (hmono : ∀ a b, a ≤ b → b < n → p a = true → p b = true) (i j : ℕ) (hij : i ≤ j)
    (hjn : j ≤ n) (hlo : ∀ m < i, p m = false) (hhi : ∀ m, j ≤ m → m < n → p m = true) :
    ∃ r, searchLoop f i j = .ok r ∧ IsSplit p n r := by
  induction i, j using searchLoop.induct f with
  | case1 i j hlt ihr ihl =>
    rw [searchLoop, if_pos hlt, hf _ (by omega)]
    cases hpm : p ((i + j) / 2)
    · refine ihr (by omega) hjn (fun m hm => ?_) hhi
      cases hp : p m
      · rfl
      · simpa [hpm] using hmono m ((i + j) / 2) (by omega) (by omega) hp
    · exact ihl (by omega) (by omega) hlo (fun m hm hmn => hmono _ m hm hmn hpm)
  | case2 i j hge =>
    rw [searchLoop, if_neg hge]
    exact ⟨i, rfl, by omega, hlo, fun m hm hmn => hhi m (by omega) hmn⟩

/-- `sort.Search` on a test that holds from some index on returns the first such index,
calling the test only inside `[0, n)`. -/
theorem search_isSplit (hf : ∀ m < n, f m = .ok (p m))
    (hmono : ∀ a b, a ≤ b → b < n → p a = true → p b = true) :
    ∃ r, search n f = .ok r ∧ IsSplit p n r :=
  searchLoop_isSplit hf hmono 0 n (Nat.zero_le n) le_rfl (by simp) (fun _ h h' => by omega)

end Search

/-- `slices.Sort` on a slice of `uint64`s: ascending order. -/
def slicesSort (s : List ℕ) : List ℕ := s.mergeSort fun a b => decide (a ≤ b)

lemma slicesSort_perm (s : List ℕ) : (slicesSort s).Perm s := List.mergeSort_perm _ _

@[simp] lemma mem_slicesSort {s : List ℕ} {n : ℕ} : n ∈ slicesSort s ↔ n ∈ s := List.mem_mergeSort

lemma slicesSort_sorted (s : List ℕ) : (slicesSort s).Sorted (· ≤ ·) :=
  (List.sorted_mergeSort (fun _ _ _ h h' => by simp only [decide_eq_true_eq] at *; omega)
    (fun a b => by simp only [Bool.or_eq_true, decide_eq_true_eq]; omega) s).imp (by simp)

end SlateDB
