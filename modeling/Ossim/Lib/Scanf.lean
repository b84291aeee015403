import Mathlib.Algebra.Group.Int.Defs
import Mathlib.Algebra.Group.Nat.Defs
import Mathlib.Data.List.TakeWhile
import Mathlib.Tactic.Common

set_option autoImplicit false

/-! # Formatted input

What C's `scanf` and `fgets` take off a text, for the directives that read words and unsigned numbers.
A directive skips the white space in front of what it reads and leaves the text right behind it; a
directive that does not match ends the scan, and the arguments after it are not assigned. A number
that its argument cannot represent is undefined behaviour.

The other way round, `decimal` and `spaced` print numbers, and the scans of printed text are given by
rules: one for a word (`scanWord_append`), one for a number (`scanUnsigned_decimal`) and from it one
for each kind of format (`scanf_numbers`, `scanf_fields`). -/

namespace Scanf

/-- A text. It is one of C, and the directives do with it what those of C do, where `IsBytes` holds:
    a NUL would end it, and other characters are no `char`. -/
abbrev Text := List Char

/-- Bytes other than NUL. -/
def IsBytes (t : Text) : Prop := ∀ c ∈ t, 0 < c.toNat ∧ c.toNat < 2 ^ 8

instance (t : Text) : Decidable (IsBytes t) := inferInstanceAs (Decidable (∀ c ∈ t, _ ∧ _))

/-- `isspace`: the space, and the control characters from tab to carriage return. -/
def isSpace (c : Char) : Bool := c.toNat == 32 || (decide (9 ≤ c.toNat) && decide (c.toNat ≤ 13))

def skipSpace (t : Text) : Text := t.dropWhile isSpace

/-! ## Scanning -/

/-- `%s`: the next word, `none` at the end of the text. -/
def scanWord (t : Text) : Option Text × Text :=
  let t := skipSpace t
  match t.takeWhile fun c => !isSpace c with
  | [] => (none, t)
  | c :: w => (some (c :: w), t.dropWhile fun c => !isSpace c)

/-- How an attempt to read a number ends. -/
inductive Number where
  | read (n : ℕ)
  /-- there are no digits -/
  | mismatch
  /-- the number does not fit its argument -/
  | undefined

/-- An optional sign: whether it is a minus, and the text behind it. -/
def sign : Text → Bool × Text
  | [] => (false, [])
  | c :: t => if c = '-' then (true, t) else if c = '+' then (false, t) else (false, c :: t)

/-- `%u` and its relatives, for an argument of `bits` bits. A minus negates in that type. -/
def scanUnsigned (bits : ℕ) (t : Text) : Number × Text :=
  let (neg, t) := sign (skipSpace t)
  match t.takeWhile Char.isDigit with
  | [] => (.mismatch, t)
  | c :: ds =>
    let n := Nat.ofDigitChars 10 (c :: ds) 0
    (if n < 2 ^ bits then .read (if neg then (2 ^ bits - n) % 2 ^ bits else n) else .undefined,
      t.dropWhile Char.isDigit)

/-- The directives of a format. -/
inductive Directive where
  /-- white space, which matches any amount of it -/
  | space
  | unsigned (bits : ℕ)

/-- The numbers a scan assigns, in their order, and the text that is left; `none` if it is undefined. -/
def scanf : List Directive → Text → Option (List ℕ × Text)
  | [], t => some ([], t)
  | .space :: ds, t => scanf ds (skipSpace t)
  | .unsigned bits :: ds, t =>
    match scanUnsigned bits t with
    | (.read n, t) => (scanf ds t).map fun r => (n :: r.1, r.2)
    | (.mismatch, t) => some ([], t)
    | (.undefined, _) => none

/-- The range of an `int`. -/
def FitsInt (n : ℤ) : Prop := -2 ^ 31 ≤ n ∧ n < 2 ^ 31

instance (n : ℤ) : Decidable (FitsInt n) := inferInstanceAs (Decidable (_ ∧ _))

/-- `"%d %d ...\n"`, for `k` arguments of type `int`: the numbers it assigns and the text that is left;
    `none` if it is undefined. -/
def scanInts : (k : ℕ) → Text → Option (List ℤ × Text)
  | 0, t => some ([], t)
  | k + 1, t =>
    let (neg, t) := sign (skipSpace t)
    match t.takeWhile Char.isDigit with
    | [] => some ([], t)
    | c :: ds =>
      let n : ℤ := Nat.ofDigitChars 10 (c :: ds) 0
      let n := if neg then -n else n
      if FitsInt n then
        (scanInts k (skipSpace (t.dropWhile Char.isDigit))).map fun r => (n :: r.1, r.2)
      else none

/-- The next line with its newline, but at most `n` characters of it: `fgets` into a buffer of `n + 1`. -/
def takeLine : (n : ℕ) → Text → Text × Text
  | 0, t => ([], t)
  | _ + 1, [] => ([], [])
  | n + 1, c :: t =>
    if c = '\n' then ([c], t)
    else
      let r := takeLine n t
      (c :: r.1, r.2)

/-- The next line with its newline. -/
def line (t : Text) : Text := (takeLine t.length t).1

/-! ## Printing -/

/-- `printf("%lu", n)` -/
def decimal (n : ℕ) : Text := Nat.toDigits 10 n

/-- Numbers, each behind a space. -/
def spaced (ns : List ℕ) : Text := ns.flatMap fun n => ' ' :: decimal n

/-- `printf("%d", n)` -/
def decimalInt (n : ℤ) : Text := if n < 0 then '-' :: decimal n.natAbs else decimal n.natAbs

/-- Integers, each behind a space. -/
def spacedInts (ns : List ℤ) : Text := ns.flatMap fun n => ' ' :: decimalInt n

/-! ## White space -/

theorem isSpace_of_isDigit {c : Char} (h : c.isDigit = true) : isSpace c = false := by
  simp only [Char.isDigit, Bool.and_eq_true, decide_eq_true_eq] at h
  have hlo : 48 ≤ c.toNat := h.1
  simp only [isSpace, Bool.or_eq_false_iff, Bool.and_eq_false_iff, beq_eq_false_iff_ne,
    decide_eq_false_iff_not]
  omega

@[simp]
theorem skipSpace_cons_space (t : Text) : skipSpace (' ' :: t) = skipSpace t := by
  simp [skipSpace, isSpace]

@[simp]
theorem skipSpace_cons_newline (t : Text) : skipSpace ('\n' :: t) = skipSpace t := by
  simp [skipSpace, isSpace]

theorem skipSpace_of_head {c : Char} (hc : isSpace c = false) (t : Text) :
    skipSpace (c :: t) = c :: t := by
  simp [skipSpace, hc]

@[simp]
theorem skipSpace_skipSpace (t : Text) : skipSpace (skipSpace t) = skipSpace t := by
  induction t with
  | nil => rfl
  | cons c t ih =>
      by_cases hc : isSpace c = true
      · have hskip : skipSpace (c :: t) = skipSpace t := by simp [skipSpace, hc]
        rw [hskip, ih]
      · rw [Bool.not_eq_true] at hc
        rw [skipSpace_of_head hc, skipSpace_of_head hc]

/-- A number may be scanned from behind the white space in front of it. -/
@[simp]
theorem scanUnsigned_skipSpace (bits : ℕ) (t : Text) :
    scanUnsigned bits (skipSpace t) = scanUnsigned bits t := by
  simp only [scanUnsigned, skipSpace_skipSpace]

theorem scanf_unsigned_skipSpace (bits : ℕ) (ds : List Directive) (t : Text) :
    scanf (.unsigned bits :: ds) (skipSpace t) = scanf (.unsigned bits :: ds) t := by
  rw [scanf, scanf, scanUnsigned_skipSpace]

@[simp]
theorem scanWord_skipSpace (t : Text) : scanWord (skipSpace t) = scanWord t := by
  simp only [scanWord, skipSpace_skipSpace]

/-! ## Words -/

/-- A text begins with white space. -/
def SpaceAhead (t : Text) : Prop := ∃ c rest, t = c :: rest ∧ isSpace c = true

/-- A word that is followed by white space. -/
theorem scanWord_append {w rest : Text} (hne : w ≠ []) (hw : ∀ c ∈ w, isSpace c = false)
    (hrest : SpaceAhead rest) : scanWord (w ++ rest) = (some w, rest) := by
  obtain ⟨c, w, rfl⟩ := List.exists_cons_of_ne_nil hne
  obtain ⟨d, rest, rfl, hd⟩ := hrest
  have hskip : skipSpace (c :: w ++ d :: rest) = c :: w ++ d :: rest :=
    skipSpace_of_head (hw c (List.mem_cons_self ..)) _
  have hword : ∀ e ∈ c :: w, (!isSpace e) = true := fun e he => by rw [hw e he]; rfl
  have htake : (c :: w ++ d :: rest).takeWhile (fun e => !isSpace e) = c :: w := by
    rw [List.takeWhile_append_of_pos hword, List.takeWhile_cons_of_neg (by simp [hd]),
      List.append_nil]
  have hdrop : (c :: w ++ d :: rest).dropWhile (fun e => !isSpace e) = d :: rest := by
    rw [List.dropWhile_append_of_pos hword, List.dropWhile_cons_of_neg (by simp [hd])]
  rw [scanWord, hskip]
  simp only [htake, hdrop]

/-! ## Numbers -/

theorem isDigit_of_mem_decimal {n : ℕ} {c : Char} (hc : c ∈ decimal n) : c.isDigit = true :=
  Nat.isDigit_of_mem_toDigits (by decide) (by decide) hc

theorem decimal_eq_cons (n : ℕ) : ∃ c ds, decimal n = c :: ds :=
  List.exists_cons_of_ne_nil Nat.toDigits_ne_nil

theorem length_decimal_le {n k : ℕ} (hk : 0 < k) (h : n < 10 ^ k) : (decimal n).length ≤ k :=
  (Nat.length_toDigits_le_iff (by decide) hk).2 h

/-- The digits of a printed number end where there is no digit. -/
theorem span_decimal (n : ℕ) {rest : Text} (hrest : ∀ c t, rest = c :: t → c.isDigit = false) :
    (decimal n ++ rest).takeWhile Char.isDigit = decimal n ∧
      (decimal n ++ rest).dropWhile Char.isDigit = rest := by
  have hdigits : ∀ d ∈ decimal n, d.isDigit = true := fun d hd => isDigit_of_mem_decimal hd
  rw [List.takeWhile_append_of_pos hdigits, List.dropWhile_append_of_pos hdigits]
  cases rest with
  | nil => exact ⟨List.append_nil _, rfl⟩
  | cons d t =>
      have hd := hrest d t rfl
      rw [List.takeWhile_cons_of_neg (by simp [hd]), List.dropWhile_cons_of_neg (by simp [hd])]
      exact ⟨List.append_nil _, rfl⟩

theorem skipSpace_decimal (n : ℕ) (rest : Text) :
    skipSpace (decimal n ++ rest) = decimal n ++ rest := by
  obtain ⟨c, ds, hcons⟩ := decimal_eq_cons n
  have hc : c.isDigit = true := isDigit_of_mem_decimal (by rw [hcons]; exact List.mem_cons_self ..)
  rw [hcons, List.cons_append, skipSpace_of_head (isSpace_of_isDigit hc)]

/-- A printed number has no sign. -/
theorem sign_decimal (n : ℕ) (rest : Text) :
    sign (skipSpace (decimal n ++ rest)) = (false, decimal n ++ rest) := by
  obtain ⟨c, ds, hcons⟩ := decimal_eq_cons n
  have hc : c.isDigit = true := isDigit_of_mem_decimal (by rw [hcons]; exact List.mem_cons_self ..)
  have hminus : c ≠ '-' := by
    rintro rfl
    exact absurd hc (by decide)
  have hplus : c ≠ '+' := by
    rintro rfl
    exact absurd hc (by decide)
  rw [skipSpace_decimal, hcons, List.cons_append, sign, if_neg hminus, if_neg hplus]

/-- A printed number, with no digit behind it. -/
theorem scanUnsigned_decimal (bits n : ℕ) {rest : Text}
    (hrest : ∀ c t, rest = c :: t → c.isDigit = false) :
    scanUnsigned bits (decimal n ++ rest) =
      (if n < 2 ^ bits then .read n else .undefined, rest) := by
  obtain ⟨c, ds, hcons⟩ := decimal_eq_cons n
  obtain ⟨htake, hdrop⟩ := span_decimal n hrest
  have hval : Nat.ofDigitChars 10 (c :: ds) 0 = n := by
    rw [← hcons]
    exact Nat.ofDigitChars_ten_toDigits
  rw [scanUnsigned, sign_decimal]
  simp only [htake, hdrop]
  rw [hcons]
  simp only [hval, Bool.false_eq_true, if_false]

theorem spaceAhead_head {t : Text} (h : SpaceAhead t) :
    ∀ c rest, t = c :: rest → c.isDigit = false := by
  rintro c rest rfl
  obtain ⟨d, rest', heq, hd⟩ := h
  obtain rfl : c = d := List.head_eq_of_cons_eq heq
  by_contra hc
  rw [Bool.not_eq_false] at hc
  rw [isSpace_of_isDigit hc] at hd
  exact absurd hd (by decide)

@[simp]
theorem spaced_nil : spaced [] = [] := rfl

theorem spaced_cons (n : ℕ) (ns : List ℕ) : spaced (n :: ns) = ' ' :: (decimal n ++ spaced ns) := rfl

theorem spaceAhead_spaced (ns : List ℕ) {rest : Text} (h : SpaceAhead rest) :
    SpaceAhead (spaced ns ++ rest) := by
  cases ns with
  | nil => exact h
  | cons n ns => exact ⟨' ', _, rfl, by decide⟩

/-- The next number of a list. -/
theorem scanUnsigned_spaced {bits n : ℕ} (hn : n < 2 ^ bits) (ns : List ℕ) {rest : Text}
    (h : SpaceAhead rest) :
    scanUnsigned bits (spaced (n :: ns) ++ rest) = (.read n, spaced ns ++ rest) := by
  rw [← scanUnsigned_skipSpace, spaced_cons, List.cons_append, skipSpace_cons_space,
    scanUnsigned_skipSpace, List.append_assoc,
    scanUnsigned_decimal bits n (spaceAhead_head (spaceAhead_spaced ns h)), if_pos hn]

/-- `"%lu%lu..."`, for `k` numbers. -/
def numbers (bits k : ℕ) : List Directive := List.replicate k (.unsigned bits)

/-- `"%lu %lu ...\n"`: white space behind each number. -/
def fields (bits : ℕ) : (k : ℕ) → List Directive
  | 0 => []
  | k + 1 => .unsigned bits :: .space :: fields bits k

theorem scanf_numbers {bits : ℕ} {ns : List ℕ} (hns : ∀ n ∈ ns, n < 2 ^ bits) {rest : Text}
    (h : SpaceAhead rest) : scanf (numbers bits ns.length) (spaced ns ++ rest) = some (ns, rest) := by
  induction ns with
  | nil => rfl
  | cons n ns ih =>
      obtain ⟨hn, hns'⟩ := List.forall_mem_cons.1 hns
      have hrest := ih hns'
      rw [numbers] at hrest
      rw [numbers, List.length_cons, List.replicate_succ, scanf, scanUnsigned_spaced hn ns h]
      simp only [hrest, Option.map_some]

/-- Fields take the white space behind the last number as well. -/
theorem scanf_fields {bits : ℕ} {ns : List ℕ} (hns : ∀ n ∈ ns, n < 2 ^ bits) {rest : Text}
    (h : SpaceAhead rest) :
    scanf (fields bits ns.length) (skipSpace (spaced ns ++ rest)) = some (ns, skipSpace rest) := by
  induction ns with
  | nil => rfl
  | cons n ns ih =>
      obtain ⟨hn, hns'⟩ := List.forall_mem_cons.1 hns
      rw [List.length_cons, fields, scanf, scanUnsigned_skipSpace, scanUnsigned_spaced hn ns h]
      simp only [scanf, ih hns', Option.map_some]

/-! ## Integers -/

theorem scanInts_skipSpace (k : ℕ) (t : Text) : scanInts (k + 1) (skipSpace t) = scanInts (k + 1) t := by
  rw [scanInts, scanInts, skipSpace_skipSpace]

/-- A printed integer, with no digit behind it. -/
theorem scanInts_decimalInt (k : ℕ) (n : ℤ) {rest : Text}
    (hrest : ∀ c t, rest = c :: t → c.isDigit = false) :
    scanInts (k + 1) (decimalInt n ++ rest) =
      if FitsInt n then (scanInts k (skipSpace rest)).map fun r => (n :: r.1, r.2) else none := by
  obtain ⟨htake, hdrop⟩ := span_decimal n.natAbs hrest
  obtain ⟨c, ds, hcons⟩ := decimal_eq_cons n.natAbs
  have hval : Nat.ofDigitChars 10 (c :: ds) 0 = n.natAbs := by
    rw [← hcons]
    exact Nat.ofDigitChars_ten_toDigits
  unfold decimalInt
  by_cases hn : n < 0
  · have hsign : sign (skipSpace ('-' :: decimal n.natAbs ++ rest)) = (true, decimal n.natAbs ++ rest) := by
      rw [List.cons_append, skipSpace_of_head (by decide), sign, if_pos rfl]
    have habs : -(n.natAbs : ℤ) = n := by omega
    rw [if_pos hn, scanInts, hsign]
    simp only [htake, hdrop]
    rw [hcons]
    simp only [hval, if_true, habs]
  · have habs : (n.natAbs : ℤ) = n := by omega
    rw [if_neg hn, scanInts, sign_decimal]
    simp only [htake, hdrop]
    rw [hcons]
    simp only [hval, Bool.false_eq_true, if_false, habs]

theorem spacedInts_cons (n : ℤ) (ns : List ℤ) :
    spacedInts (n :: ns) = ' ' :: (decimalInt n ++ spacedInts ns) := rfl

/-- All of them have to fit. -/
theorem scanInts_spaced (ns : List ℤ) {rest : Text} (h : SpaceAhead rest) :
    scanInts ns.length (skipSpace (spacedInts ns ++ rest)) =
      if ∀ n ∈ ns, FitsInt n then some (ns, skipSpace rest) else none := by
  induction ns with
  | nil => rw [if_pos fun _ hn => absurd hn List.not_mem_nil]; rfl
  | cons n ns ih =>
      have hahead : SpaceAhead (spacedInts ns ++ rest) := by
        cases ns with
        | nil => exact h
        | cons n ns => exact ⟨' ', _, rfl, by decide⟩
      rw [spacedInts_cons, List.cons_append, skipSpace_cons_space, List.length_cons, scanInts_skipSpace,
        List.append_assoc, scanInts_decimalInt ns.length n (spaceAhead_head hahead), ih]
      by_cases hn : FitsInt n
      · by_cases hns : ∀ n ∈ ns, FitsInt n
        · rw [if_pos hn, if_pos hns, if_pos (List.forall_mem_cons.2 ⟨hn, hns⟩)]
          rfl
        · rw [if_pos hn, if_neg hns, if_neg (mt (fun h => (List.forall_mem_cons.1 h).2) hns)]
          rfl
      · rw [if_neg hn, if_neg (mt (fun h => (List.forall_mem_cons.1 h).1) hn)]

/-! ## What a scan returns -/

theorem scanUnsigned_lt {bits n : ℕ} {t t' : Text} (h : scanUnsigned bits t = (.read n, t')) :
    n < 2 ^ bits := by
  unfold scanUnsigned at h
  dsimp only at h
  split at h
  · exact absurd (congrArg Prod.fst h) (by simp)
  · split at h
    · next hlt =>
        have hn := Number.read.inj (congrArg Prod.fst h)
        rw [← hn]
        split
        · exact Nat.mod_lt _ (Nat.two_pow_pos bits)
        · exact hlt
    · exact absurd (congrArg Prod.fst h) (by simp)

/-- The numbers fit their arguments. -/
theorem scanf_lt {bits : ℕ} {ds : List Directive} (hds : ∀ b, .unsigned b ∈ ds → b = bits) {t t' : Text}
    {ns : List ℕ} (h : scanf ds t = some (ns, t')) : ∀ n ∈ ns, n < 2 ^ bits := by
  induction ds generalizing t t' ns with
  | nil =>
      obtain rfl : [] = ns := congrArg Prod.fst (Option.some.inj h)
      exact fun _ hn => absurd hn List.not_mem_nil
  | cons d ds ih =>
      have hds' : ∀ b, .unsigned b ∈ ds → b = bits := fun b hb => hds b (List.mem_cons_of_mem _ hb)
      cases d with
      | space => exact ih hds' h
      | unsigned b =>
          obtain rfl := hds b (List.mem_cons_self ..)
          rw [scanf] at h
          split at h
          · next n t'' hscan =>
              obtain ⟨⟨ns', t₁⟩, hrest, hr⟩ := Option.map_eq_some_iff.1 h
              obtain rfl : n :: ns' = ns := congrArg Prod.fst hr
              exact List.forall_mem_cons.2 ⟨scanUnsigned_lt hscan, ih hds' hrest⟩
          · obtain rfl : [] = ns := congrArg Prod.fst (Option.some.inj h)
            exact fun _ hn => absurd hn List.not_mem_nil
          · exact absurd h (by simp)

/-- What an argument holds after a scan: the value read for it, or what it held before. -/
theorem getElem?_getD_of_forall {α : Type*} {P : α → Prop} {vs : List α} (h : ∀ v ∈ vs, P v) (k : ℕ)
    {a : α} (ha : P a) : P (vs[k]?.getD a) := by
  cases hk : vs[k]? with
  | none => exact ha
  | some v => exact h v (List.mem_of_getElem? hk)

theorem isBytes_append {t u : Text} : IsBytes (t ++ u) ↔ IsBytes t ∧ IsBytes u := List.forall_mem_append

theorem isBytes_cons {c : Char} {t : Text} :
    IsBytes (c :: t) ↔ (0 < c.toNat ∧ c.toNat < 2 ^ 8) ∧ IsBytes t := List.forall_mem_cons

theorem isBytes_nil : IsBytes [] := fun _ h => absurd h List.not_mem_nil

theorem isBytes_cons_space {t : Text} : IsBytes (' ' :: t) ↔ IsBytes t := by
  rw [isBytes_cons]
  exact and_iff_right (by decide)

theorem isBytes_cons_newline {t : Text} : IsBytes ('\n' :: t) ↔ IsBytes t := by
  rw [isBytes_cons]
  exact and_iff_right (by decide)

theorem isBytes_flatMap {α : Type} {l : List α} {f : α → Text} (h : ∀ a ∈ l, IsBytes (f a)) :
    IsBytes (l.flatMap f) := by
  intro c hc
  obtain ⟨a, ha, hc⟩ := List.mem_flatMap.1 hc
  exact h a ha c hc

theorem isBytes_decimal (n : ℕ) : IsBytes (decimal n) := by
  intro c hc
  have hdigit : c.isDigit = true := isDigit_of_mem_decimal hc
  simp only [Char.isDigit, Bool.and_eq_true, decide_eq_true_eq] at hdigit
  have hlo : 48 ≤ c.toNat := hdigit.1
  have hhi : c.toNat ≤ 57 := hdigit.2
  omega

theorem isBytes_decimalInt (n : ℤ) : IsBytes (decimalInt n) := by
  unfold decimalInt
  split
  · rw [isBytes_cons]
    exact ⟨by decide, isBytes_decimal _⟩
  · exact isBytes_decimal _

theorem isBytes_spaced (ns : List ℕ) : IsBytes (spaced ns) :=
  isBytes_flatMap fun n _ => isBytes_cons_space.2 (isBytes_decimal n)

theorem isBytes_spacedInts (ns : List ℤ) : IsBytes (spacedInts ns) :=
  isBytes_flatMap fun n _ => isBytes_cons_space.2 (isBytes_decimalInt n)

/-! ## Lines -/

/-- A line that ends with its newline and fits is read whole. -/
theorem takeLine_append {l : Text} (hl : '\n' ∉ l) {n : ℕ} (hn : l.length < n) (rest : Text) :
    takeLine n (l ++ '\n' :: rest) = (l ++ ['\n'], rest) := by
  induction l generalizing n with
  | nil =>
      obtain ⟨n, rfl⟩ := Nat.exists_eq_succ_of_ne_zero (Nat.ne_of_gt hn)
      simp [takeLine]
  | cons c l ih =>
      obtain ⟨n, rfl⟩ := Nat.exists_eq_succ_of_ne_zero (Nat.ne_of_gt (Nat.zero_lt_of_lt hn))
      obtain ⟨hc, hl'⟩ := not_or.1 (mt List.mem_cons.2 hl)
      rw [List.length_cons] at hn
      rw [List.cons_append, takeLine, if_neg (Ne.symm hc), ih hl' (by omega)]
      rfl

theorem line_append {l : Text} (hl : '\n' ∉ l) (rest : Text) :
    line (l ++ '\n' :: rest) = l ++ ['\n'] := by
  have hlt : l.length < (l ++ '\n' :: rest).length := by
    rw [List.length_append, List.length_cons]
    omega
  rw [line, takeLine_append hl hlt]

theorem newline_not_mem_spaced (ns : List ℕ) : '\n' ∉ spaced ns := by
  intro hmem
  obtain ⟨n, -, hc⟩ := List.mem_flatMap.1 hmem
  rcases List.mem_cons.1 hc with hc | hc
  · exact absurd hc (by decide)
  · exact absurd (isDigit_of_mem_decimal hc) (by decide)

/-- Printed numbers take up a bounded part of a line. -/
theorem length_spaced_le {k : ℕ} (hk : 0 < k) {ns : List ℕ} (hns : ∀ n ∈ ns, n < 10 ^ k) :
    (spaced ns).length ≤ ns.length * (k + 1) := by
  induction ns with
  | nil => simp
  | cons n ns ih =>
      obtain ⟨hn, hns'⟩ := List.forall_mem_cons.1 hns
      have hlen := length_decimal_le hk hn
      have hrest := ih hns'
      rw [spaced_cons, List.length_cons, List.length_append, List.length_cons, Nat.succ_mul]
      omega

end Scanf
