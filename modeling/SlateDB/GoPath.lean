import Mathlib.Data.List.Infix
import SlateDB.Go

/-! Go's `path`, `strings` and `strconv` functions that name object paths and read ids back
out of them. A string is taken as its list of characters: the separators `/` and `.` are
single bytes in UTF-8, so nothing here depends on the encoding. -/
namespace SlateDB

namespace Strings

/-- `strings.Contains(s, substr)`. -/
def contains (s substr : String) : Bool := s.data.tails.any (substr.data.isPrefixOf ·)

/-- The first occurrence of `old` in a character list replaced by `new`. -/
def replaceFirst (old new : List Char) : List Char → List Char
  | [] => if old = [] then new else []
  | c :: cs =>
    if old.isPrefixOf (c :: cs) then new ++ (c :: cs).drop old.length
    else c :: replaceFirst old new cs

/-- `strings.Replace(s, old, new, 1)`, the one count the code passes. -/
def replace (s old new : String) : String := ⟨replaceFirst old.data new.data s.data⟩

lemma contains_append (pre : List Char) (substr : String) :
    contains ⟨pre ++ substr.data⟩ substr = true := by
  simp only [contains, List.any_eq_true]
  exact ⟨substr.data, (List.mem_tails _ _).mpr (List.suffix_append _ _), by simp [List.isPrefixOf_iff_prefix]⟩

/-- `old` is replaced at the end when its first character does not occur before it. -/
lemma replaceFirst_append (old new d : List Char) {h : Char} (hold : old.head? = some h)
    (hd : h ∉ d) : replaceFirst old new (d ++ old) = d ++ new := by
  induction d with
  | nil =>
    obtain ⟨t, rfl⟩ : ∃ t, old = h :: t := by cases old <;> simp_all
    simp [replaceFirst, List.isPrefixOf_iff_prefix]
  | cons c d ih =>
    obtain ⟨t, rfl⟩ : ∃ t, old = h :: t := by cases old <;> simp_all
    have hc : c ≠ h := fun e => hd (e ▸ List.mem_cons_self c d)
    simp [replaceFirst, List.isPrefixOf, hc.symm, ih (fun m => hd (List.mem_cons_of_mem c m))]

/-- What `replaceFirst` returns: the list unchanged, or the list with one occurrence of
`old` replaced. -/
lemma replaceFirst_cases (old new s : List Char) :
    replaceFirst old new s = s ∨
      ∃ pre post, s = pre ++ old ++ post ∧ replaceFirst old new s = pre ++ new ++ post := by
  induction s with
  | nil =>
    by_cases h : old = []
    · exact .inr ⟨[], [], by simp [h], by simp [replaceFirst, h]⟩
    · simp [replaceFirst, h]
  | cons c cs ih =>
    by_cases hp : old.isPrefixOf (c :: cs)
    · obtain ⟨post, hpost⟩ := List.isPrefixOf_iff_prefix.mp hp
      refine .inr ⟨[], post, by simp [hpost], ?_⟩
      simp [replaceFirst, hp, ← hpost]
    · rcases ih with ih | ⟨pre, post, rfl, ih⟩
      · exact .inl (by rw [replaceFirst, if_neg hp, ih])
      · exact .inr ⟨c :: pre, post, rfl, by rw [replaceFirst, if_neg hp, ih]; rfl⟩

/-- Removing the first occurrence of `old` from `y ++ old` leaves `y`, when what is left
does not hold the last character of `old`. -/
lemma replaceFirst_remove_last {y old : List Char} {t : Char} (hlast : old.getLast? = some t)
    (ht : t ∉ replaceFirst old [] (y ++ old)) : replaceFirst old [] (y ++ old) = y := by
  have hend : (y ++ old).getLast? = some t := by simp [hlast]
  rcases replaceFirst_cases old [] (y ++ old) with h | ⟨pre, post, hs, h⟩
  · exact absurd (by rw [h]; exact List.mem_of_getLast?_eq_some hend) ht
  · rw [h] at ht ⊢
    cases hp : post.getLast? with
    | none =>
      rw [List.getLast?_eq_none_iff] at hp
      subst hp
      simpa using hs.symm
    | some x =>
      have hx : (y ++ old).getLast? = some x := by rw [hs]; simp [hp]
      rw [hend, Option.some_inj] at hx
      exact absurd (List.mem_append_right _ (hx ▸ List.mem_of_getLast?_eq_some hp)) ht

end Strings

namespace Path

/-- The loop of `path.Ext`, reading the path backwards from its last byte until a slash:
`acc` is the suffix read so far, returned from the first dot met. -/
def extScan : List Char → List Char → List Char
  | [], _ => []
  | c :: cs, acc => if c = '/' then [] else if c = '.' then c :: acc else extScan cs (c :: acc)

/-- `path.Ext`: the suffix from the final dot of the last element, or empty. -/
def ext (p : String) : String := ⟨extScan p.data.reverse []⟩

/-- `path.Base`: the last element once trailing slashes are removed; `.` for the empty path
and `/` for a path of slashes. -/
def base (p : String) : String :=
  if p.data = [] then "." else
  let last := ((p.data.reverse.dropWhile (· == '/')).takeWhile (· != '/')).reverse
  if last = [] then "/" else ⟨last⟩

/-- One element of `path.Clean`'s rewrite, on the elements kept so far, the last one first:
empty and `.` elements go; `..` removes the element before it when that is not itself `..`,
is kept when there is none to remove, and goes at the root of a rooted path. -/
def cleanStep (rooted : Bool) (kept : List (List Char)) (e : List Char) : List (List Char) :=
  if e = [] ∨ e = ['.'] then kept
  else if e = ['.', '.'] then
    match kept with
    | top :: rest => if top = ['.', '.'] then e :: kept else rest
    | [] => if rooted then [] else [e]
  else e :: kept

/-- The kept elements joined by slashes; the list holds the last element first. -/
def render : List (List Char) → List Char
  | [] => []
  | e :: rest => if rest = [] then e else render rest ++ '/' :: e

/-- `path.Clean`, by the rules it documents: repeated slashes become one, `.` elements go,
an inner `..` removes the element before it, and `..` at the root of a rooted path goes. A
rooted path keeps its leading slash, and an empty result is `.`. -/
def clean (p : String) : String :=
  if p.data = [] then "." else
  let rooted := p.data.head? == some '/'
  let out := (if rooted then ['/'] else []) ++
    render ((p.data.splitOn '/').foldl (cleanStep rooted) [])
  if out = [] then "." else ⟨out⟩

/-- One element of `path.Join`'s loop: leading empty elements are skipped, and once the
buffer is not empty a slash goes before each element. -/
def joinStep (buf : List Char) (e : String) : List Char :=
  if buf ≠ [] ∨ e.data ≠ [] then (if buf ≠ [] then buf ++ ['/'] else buf) ++ e.data else buf

/-- `path.Join(elem...)`: empty when every element is, and otherwise the joined elements
cleaned. -/
def join (elem : List String) : String :=
  if elem.all (·.data.isEmpty) then "" else clean ⟨elem.foldl joinStep []⟩

/-- `p` ends with the element `e`: it is `e`, or `e` after a slash. -/
def EndsWithElem (p e : List Char) : Prop := p = e ∨ ∃ pre, p = pre ++ '/' :: e

/-- A plain element: one that `Clean` keeps as it is. -/
def PlainElem (e : List Char) : Prop := '/' ∉ e ∧ e ≠ [] ∧ e ≠ ['.'] ∧ e ≠ ['.', '.']

lemma extScan_append {l : List Char} (rest acc : List Char) (hl : ∀ c ∈ l, c ≠ '/' ∧ c ≠ '.') :
    extScan (l ++ rest) acc = extScan rest (l.reverse ++ acc) := by
  induction l generalizing acc with
  | nil => rfl
  | cons c l ih =>
    have hc := hl c (List.mem_cons_self c l)
    simp [extScan, hc.1, hc.2, ih _ (fun d hd => hl d (List.mem_cons_of_mem c hd))]

/-- The extension of a path that ends in a dot and a suffix with no dot or slash. -/
lemma ext_append_dot (pre x : List Char) (hx : ∀ c ∈ x, c ≠ '/' ∧ c ≠ '.') :
    ext ⟨pre ++ '.' :: x⟩ = ⟨'.' :: x⟩ := by
  have hr : ∀ c ∈ x.reverse, c ≠ '/' ∧ c ≠ '.' := fun c hc => hx c (List.mem_reverse.mp hc)
  simp [ext, extScan_append _ _ hr, extScan]

/-- `path.Ext` returns a suffix of the path. -/
lemma ext_suffix (p : String) : (ext p).data <:+ p.data := by
  suffices h : ∀ l acc, extScan l acc <:+ l.reverse ++ acc by simpa [ext] using h p.data.reverse []
  intro l
  induction l with
  | nil => intro acc; exact List.nil_suffix
  | cons c l ih =>
    intro acc
    simp only [extScan, List.reverse_cons, List.append_assoc, List.singleton_append]
    split_ifs
    · exact List.nil_suffix
    · exact List.suffix_append _ _
    · exact ih _

/-- The base of a path that ends in a non-empty text without slashes ends with that text,
after the rest of the last element. -/
lemma base_append (q x : List Char) (hx : '/' ∉ x) (hne : x ≠ []) :
    (base ⟨q ++ x⟩).data = (q.reverse.takeWhile (· != '/')).reverse ++ x := by
  have hnot : ∀ c ∈ x.reverse, c ≠ '/' := fun c hc h => hx (h ▸ List.mem_reverse.mp hc)
  obtain ⟨c, t, hct⟩ := List.exists_cons_of_ne_nil (List.reverse_ne_nil_iff.mpr hne)
  have hc : c ≠ '/' := hnot c (hct ▸ List.mem_cons_self c t)
  have hlast : ((x.reverse ++ q.reverse).dropWhile (· == '/')).takeWhile (· != '/') =
      x.reverse ++ q.reverse.takeWhile (· != '/') := by
    rw [hct, List.cons_append,
      List.dropWhile_cons_of_neg (p := fun x => x == '/') fun h => hc (beq_iff_eq.mp h),
      ← List.cons_append, ← hct,
      List.takeWhile_append_of_pos (p := fun x => x != '/') fun a ha => bne_iff_ne.mpr (hnot a ha)]
  have hlast' : (x.reverse ++ q.reverse.takeWhile (· != '/')).reverse ≠ [] :=
    List.reverse_ne_nil_iff.mpr
      (List.append_ne_nil_of_left_ne_nil (List.reverse_ne_nil_iff.mpr hne) _)
  simp only [base, List.append_eq_nil, hne, and_false, if_false, List.reverse_append, hlast,
    if_neg hlast', List.reverse_reverse]

/-- The base of a path that ends with a slash-free, non-empty element is that element. -/
lemma base_of_endsWithElem {p e : List Char} (hp : EndsWithElem p e) (he : '/' ∉ e)
    (hne : e ≠ []) : base ⟨p⟩ = ⟨e⟩ := by
  rcases hp with rfl | ⟨pre, rfl⟩
  · exact String.ext (by simpa using base_append [] p he hne)
  · exact String.ext (by simpa using base_append (pre ++ ['/']) e he hne)

lemma splitOn_append_elem (b e : List Char) (he : '/' ∉ e) :
    (b ++ '/' :: e).splitOn '/' = b.splitOn '/' ++ [e] := by
  simp only [List.splitOn]
  induction b with
  | nil =>
    simp [List.splitOnP_eq_single _ e (fun c hc (h : (c == '/') = true) => he (beq_iff_eq.mp h ▸ hc))]
  | cons c b ih =>
    obtain ⟨x, xs, hx⟩ := List.exists_cons_of_ne_nil (List.splitOnP_ne_nil (· == '/') b)
    by_cases hc : c = '/'
    · simp [hc, ih]
    · simp [hc, ih, hx]

lemma endsWithElem_render (e : List Char) (rest : List (List Char)) :
    EndsWithElem (render (e :: rest)) e := by
  by_cases h : rest = []
  · exact .inl (by simp [render, h])
  · exact .inr ⟨render rest, by simp [render, h]⟩

lemma EndsWithElem.slash_cons {p e : List Char} : EndsWithElem p e → EndsWithElem ('/' :: p) e
  | .inl h => .inr ⟨[], by simp [h]⟩
  | .inr ⟨pre, h⟩ => .inr ⟨'/' :: pre, by simp [h]⟩

lemma EndsWithElem.suffix {p e : List Char} (h : EndsWithElem p e) : e <:+ p := by
  rcases h with rfl | ⟨pre, rfl⟩
  · exact List.suffix_refl _
  · exact ⟨pre ++ ['/'], by simp⟩

lemma EndsWithElem.ne_nil {p e : List Char} (h : EndsWithElem p e) (he : e ≠ []) : p ≠ [] := by
  rcases h with rfl | ⟨pre, rfl⟩ <;> simp [he]

/-- Cleaning keeps a plain last element last. -/
lemma clean_endsWithElem (b : List Char) {e : List Char} (he : PlainElem e) :
    EndsWithElem (clean ⟨b ++ '/' :: e⟩).data e := by
  obtain ⟨hs, hne, hdot, hdotdot⟩ := he
  have hkept : ∀ rooted, ((b ++ '/' :: e).splitOn '/').foldl (cleanStep rooted) [] =
      e :: (b.splitOn '/').foldl (cleanStep rooted) [] := fun rooted => by
    rw [splitOn_append_elem b e hs, List.foldl_append]
    simp [cleanStep, hne, hdot, hdotdot]
  have hends : ∀ rooted : Bool, EndsWithElem ((if rooted then ['/'] else []) ++
      render (e :: (b.splitOn '/').foldl (cleanStep rooted) [])) e := by
    rintro (_ | _)
    · exact endsWithElem_render _ _
    · exact (endsWithElem_render _ _).slash_cons
  simp only [clean, hkept]
  rw [if_neg (by simp), if_neg ((hends _).ne_nil hne)]
  exact hends _

lemma joinStep_of_ne_nil {buf : List Char} (h : buf ≠ []) (e : String) :
    joinStep buf e = buf ++ '/' :: e.data := by
  simp [joinStep, h]

lemma joinStep_ne_nil (buf : List Char) {e : String} (h : e.data ≠ []) : joinStep buf e ≠ [] := by
  unfold joinStep; split_ifs <;> simp_all

/-- `path.Join(a, b, e)` with a non-empty middle element ends with a plain last element. -/
lemma join_endsWithElem (a b : String) {e : List Char} (hb : b.data ≠ []) (he : PlainElem e) :
    EndsWithElem (join [a, b, ⟨e⟩]).data e := by
  have hbuf := joinStep_ne_nil (joinStep [] a) hb
  have hall : ¬[a, b, ⟨e⟩].all (·.data.isEmpty) := by simp [hb]
  rw [join, if_neg hall, List.foldl_cons, List.foldl_cons, List.foldl_cons, List.foldl_nil,
    joinStep_of_ne_nil hbuf]
  exact clean_endsWithElem _ he

end Path

namespace Strconv

/-- `strconv.ErrSyntax`. -/
def errSyntax : Err := .other "invalid syntax"

/-- `strconv.ErrRange`. -/
def errRange : Err := .other "value out of range"

/-- The digit loop of `strconv.ParseUint(s, 10, 64)`: a byte that is not a decimal digit is a
syntax error (a letter reads as a digit of at least ten, above the base), and a value that
no longer fits in 64 bits a range error. -/
def parseUintLoop : ℕ → List Char → Except Err ℕ
  | n, [] => pure n
  | n, c :: cs =>
    if c.isDigit then
      let n1 := n * 10 + (c.toNat - '0'.toNat)
      if n1 < 2 ^ 64 then parseUintLoop n1 cs else throw errRange
    else throw errSyntax

/-- `strconv.ParseUint(s, 10, 64)`. -/
def parseUint (s : String) : Except Err ℕ :=
  if s.data = [] then throw errSyntax else parseUintLoop 0 s.data

/-- The value of a list of decimal digits read from the left onto `n`. -/
def decimalValue (n : ℕ) (l : List Char) : ℕ :=
  l.foldl (fun n c => n * 10 + (c.toNat - '0'.toNat)) n

@[simp] lemma decimalValue_nil (n : ℕ) : decimalValue n [] = n := rfl
@[simp] lemma decimalValue_cons (n : ℕ) (c : Char) (l : List Char) :
    decimalValue n (c :: l) = decimalValue (n * 10 + (c.toNat - '0'.toNat)) l := rfl

@[simp] lemma decimalValue_append (n : ℕ) (l r : List Char) :
    decimalValue n (l ++ r) = decimalValue (decimalValue n l) r := List.foldl_append _ _ _ _

lemma le_decimalValue (n : ℕ) (l : List Char) : n ≤ decimalValue n l := by
  induction l generalizing n with
  | nil => rfl
  | cons c l ih => rw [decimalValue_cons]; exact le_trans (by omega) (ih _)

lemma parseUintLoop_of_digits {l : List Char} (n : ℕ) (hd : ∀ c ∈ l, c.isDigit)
    (hlt : decimalValue n l < 2 ^ 64) : parseUintLoop n l = .ok (decimalValue n l) := by
  induction l generalizing n with
  | nil => rfl
  | cons c l ih =>
    have hstep := le_decimalValue (n * 10 + (c.toNat - '0'.toNat)) l
    rw [decimalValue_cons] at hlt ⊢
    simp only [parseUintLoop, hd c (List.mem_cons_self c l), if_true, if_pos (hstep.trans_lt hlt)]
    exact ih _ (fun d hd' => hd d (List.mem_cons_of_mem c hd')) hlt

lemma parseUintLoop_ok {n m : ℕ} {l : List Char} (h : parseUintLoop n l = .ok m)
    (hn : n < 2 ^ 64) : (∀ c ∈ l, c.isDigit) ∧ decimalValue n l = m ∧ m < 2 ^ 64 := by
  induction l generalizing n with
  | nil => cases h; exact ⟨by simp, rfl, hn⟩
  | cons c l ih =>
    simp only [parseUintLoop] at h
    split_ifs at h with hc hlt
    obtain ⟨hl, hv, hm⟩ := ih h hlt
    exact ⟨by simpa [hc] using hl, hv, hm⟩

/-- `ParseUint` accepts exactly the non-empty strings of decimal digits whose value fits in
64 bits, and returns that value. -/
theorem parseUint_eq_ok_iff (s : String) (n : ℕ) :
    parseUint s = .ok n ↔
      s.data ≠ [] ∧ (∀ c ∈ s.data, c.isDigit) ∧ decimalValue 0 s.data = n ∧ n < 2 ^ 64 := by
  unfold parseUint
  by_cases hs : s.data = []
  · simp [hs, errSyntax]
  · rw [if_neg hs]
    constructor
    · intro h
      exact ⟨hs, parseUintLoop_ok h (Nat.two_pow_pos 64)⟩
    · rintro ⟨-, hd, rfl, hlt⟩
      exact parseUintLoop_of_digits 0 hd hlt

lemma digitChar_decimal : ∀ d < 10,
    (Nat.digitChar d).isDigit ∧ (Nat.digitChar d).toNat - '0'.toNat = d := by
  decide

lemma toDigitsCore_append (fuel n : ℕ) (ds : List Char) :
    Nat.toDigitsCore 10 fuel n ds = Nat.toDigitsCore 10 fuel n [] ++ ds := by
  induction fuel generalizing n ds with
  | zero => rfl
  | succ fuel ih =>
    simp only [Nat.toDigitsCore]
    split_ifs
    · rfl
    · rw [ih _ (_ :: ds), ih _ [_]]; simp

/-- The decimal digits `Nat.repr` prints read back as the number. -/
lemma toDigitsCore_decimal (fuel n : ℕ) (h : n < fuel) :
    (∀ c ∈ Nat.toDigitsCore 10 fuel n [], c.isDigit) ∧
      decimalValue 0 (Nat.toDigitsCore 10 fuel n []) = n := by
  induction fuel generalizing n with
  | zero => omega
  | succ fuel ih =>
    have hd := digitChar_decimal (n % 10) (Nat.mod_lt n (by decide))
    simp only [Nat.toDigitsCore]
    split_ifs with h0
    · simp only [List.mem_singleton, forall_eq, decimalValue_cons, decimalValue_nil]
      exact ⟨hd.1, by omega⟩
    · obtain ⟨hl, hv⟩ := ih (n / 10) (by omega)
      rw [toDigitsCore_append, decimalValue_append, hv]
      refine ⟨fun c hc => ?_, by rw [decimalValue_cons, decimalValue_nil, hd.2]; omega⟩
      rcases List.mem_append.mp hc with hc | hc
      · exact hl c hc
      · simp only [List.mem_singleton] at hc; exact hc ▸ hd.1

lemma toDigitsCore_ne_nil (fuel n : ℕ) : Nat.toDigitsCore 10 (fuel + 1) n [] ≠ [] := by
  simp only [Nat.toDigitsCore]
  split_ifs
  · simp
  · rw [toDigitsCore_append]; simp

/-- The decimal text of a number is a non-empty list of digits. -/
lemma toString_digits (n : ℕ) :
    (toString n).data ≠ [] ∧ ∀ c ∈ (toString n).data, c.isDigit :=
  ⟨toDigitsCore_ne_nil n n, (toDigitsCore_decimal (n + 1) n (Nat.lt_succ_self n)).1⟩

/-- Distinct numbers print to distinct decimal texts. -/
lemma toString_injective : Function.Injective (toString : ℕ → String) := fun u v h =>
  (toDigitsCore_decimal (u + 1) u (Nat.lt_succ_self u)).2.symm.trans
    ((congrArg (decimalValue 0 ∘ String.data) h).trans
      (toDigitsCore_decimal (v + 1) v (Nat.lt_succ_self v)).2)

/-- `ParseUint` reads back the decimal text of every 64-bit number. -/
theorem parseUint_toString (n : ℕ) (h : n < 2 ^ 64) : parseUint (toString n) = .ok n :=
  (parseUint_eq_ok_iff _ _).mpr ⟨(toString_digits n).1, (toString_digits n).2,
    (toDigitsCore_decimal (n + 1) n (Nat.lt_succ_self n)).2, h⟩

end Strconv

end SlateDB
