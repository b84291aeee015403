import Ossim.Config

set_option autoImplicit false

/-! # Reading what was printed

A configuration printed the way the files under `input` are written: the time slot and the numbers of
CPUs and processes on the first line, the sizes of the devices on a line of their own or left out, and
a line for each process. `read_config` reads it back exactly if the names of the process files fit the
buffer for their paths and the line of sizes, when it is left out, is not found in the line of the
first process. -/

namespace Ossim

open Scanf Loader

/-! ## Printing -/

/-- A line for a process; the name is the one its file has under `input/proc`. -/
structure ConfigLine where
  name : Text
  startTime : ℕ
  prio : ℕ
  name_ne : name ≠ []
  isSpace_name : ∀ c ∈ name, isSpace c = false
  startTime_lt : startTime < 2 ^ 64
  prio_lt : prio < 2 ^ 64

/-- A line of sizes. -/
structure ConfigSizes where
  memramsz : ℕ
  memswpsz : List ℕ
  length_memswpsz : memswpsz.length = 4
  lt : ∀ n ∈ memramsz :: memswpsz, n < 2 ^ 64

/-- What a configuration says. -/
structure Setup where
  timeSlot : ℤ
  numCpus : ℤ
  sizes : Option ConfigSizes
  lines : List ConfigLine
  timeSlot_fits : FitsInt timeSlot
  numCpus_fits : FitsInt numCpus

def ConfigLine.print (l : ConfigLine) : Text :=
  decimal l.startTime ++ ' ' :: (l.name ++ (spaced [l.prio] ++ ['\n']))

def ConfigSizes.print (z : ConfigSizes) : Text := decimal z.memramsz ++ (spaced z.memswpsz ++ ['\n'])

def printLines (ls : List ConfigLine) : Text := ls.flatMap ConfigLine.print

/-- What comes behind the first line. -/
def Setup.printBody (s : Setup) : Text :=
  (s.sizes.map ConfigSizes.print).getD [] ++ printLines s.lines

/-- The configuration file. -/
def Setup.print (s : Setup) : Text :=
  decimalInt s.timeSlot ++ (spacedInts [s.numCpus, s.lines.length] ++ '\n' :: s.printBody)

def ConfigLine.ldProcess (l : ConfigLine) : LdProcess := ⟨procDir ++ l.name, l.startTime, l.prio⟩

/-- What `read_config` makes of it when all goes well. -/
def Setup.conf (s : Setup) : ReadConfig where
  timeSlot := s.timeSlot
  numCpus := s.numCpus
  memramsz := (s.sizes.map ConfigSizes.memramsz).getD defaultSz
  memswpsz := (s.sizes.map ConfigSizes.memswpsz).getD [defaultSz, 0, 0, 0]
  ldProcesses := s.lines.map ConfigLine.ldProcess

/-- The path of the file fits its buffer. -/
def ConfigLine.Short (l : ConfigLine) : Prop := (procDir ++ l.name).length + 1 ≤ pathSz

instance (l : ConfigLine) : Decidable l.Short := inferInstanceAs (Decidable (_ ≤ _))

/-- The line does not begin with five numbers. -/
def ConfigLine.NotSizes (l : ConfigLine) : Prop :=
  ∃ vs t, scanf (numbers 64 5) l.print = some (vs, t) ∧ vs.length ≠ 5

/-- What `read_config` needs to read a configuration back. -/
structure Setup.Readable (s : Setup) : Prop where
  length : s.lines.length < 2 ^ 31
  short : ∀ l ∈ s.lines, l.Short
  first : s.sizes = none → ∃ l ls, s.lines = l :: ls ∧ l.NotSizes

/-- What is printed is a file when the names in it are. -/
theorem Setup.isBytes_print {s : Setup} (h : ∀ l ∈ s.lines, IsBytes l.name) : IsBytes s.print := by
  have hlines : IsBytes (printLines s.lines) := by
    refine isBytes_flatMap fun l hl => ?_
    rw [ConfigLine.print, isBytes_append, isBytes_cons_space, isBytes_append, isBytes_append,
      isBytes_cons_newline]
    exact ⟨isBytes_decimal _, h l hl, isBytes_spaced _, isBytes_nil⟩
  have hsizes : IsBytes ((s.sizes.map ConfigSizes.print).getD []) := by
    cases s.sizes with
    | none => exact isBytes_nil
    | some z =>
        rw [Option.map_some, Option.getD_some, ConfigSizes.print, isBytes_append, isBytes_append,
          isBytes_cons_newline]
        exact ⟨isBytes_decimal _, isBytes_spaced _, isBytes_nil⟩
  rw [Setup.print, isBytes_append, isBytes_append, isBytes_cons_newline, Setup.printBody, isBytes_append]
  exact ⟨isBytes_decimalInt _, isBytes_spacedInts _, hsizes, hlines⟩

/-! ## Lines of processes -/

theorem skipSpace_printLines (ls : List ConfigLine) : skipSpace (printLines ls) = printLines ls := by
  cases ls with
  | nil => rfl
  | cons l ls =>
      rw [printLines, List.flatMap_cons, ConfigLine.print, List.append_assoc]
      exact skipSpace_decimal _ _

theorem readProcess_print (prio : ℕ) {l : ConfigLine} (hl : l.Short) (t : Text) :
    readProcess prio (l.print ++ t) = .ok (l.ldProcess, skipSpace t) := by
  have hahead : SpaceAhead ('\n' :: t) := ⟨'\n', t, rfl, by decide⟩
  have hstart : scanf [.unsigned 64, .space] (l.print ++ t) =
      some ([l.startTime], skipSpace (l.name ++ (spaced [l.prio] ++ '\n' :: t))) := by
    have hspace : SpaceAhead (' ' :: (l.name ++ (spaced [l.prio] ++ '\n' :: t))) :=
      ⟨' ', _, rfl, by decide⟩
    have hscan := scanUnsigned_decimal 64 l.startTime (spaceAhead_head hspace)
    rw [if_pos l.startTime_lt] at hscan
    rw [ConfigLine.print, List.append_assoc, List.cons_append, List.append_assoc, List.append_assoc,
      List.singleton_append, scanf, hscan]
    simp only [scanf, skipSpace_cons_space, Option.map_some]
  have hname : scanWord (l.name ++ (spaced [l.prio] ++ '\n' :: t)) =
      (some l.name, spaced [l.prio] ++ '\n' :: t) :=
    scanWord_append l.name_ne l.isSpace_name (spaceAhead_spaced _ hahead)
  have hprio : scanf [.space, .unsigned 64, .space] (spaced [l.prio] ++ '\n' :: t) =
      some ([l.prio], skipSpace t) := by
    have hfields := scanf_fields (List.forall_mem_singleton.2 l.prio_lt) hahead
    rw [skipSpace_cons_newline] at hfields
    rw [scanf]
    exact hfields
  have hproc : l.name.length + 1 ≤ procNameSz := by
    unfold ConfigLine.Short pathSz at hl
    rw [List.length_append] at hl
    unfold procNameSz
    omega
  rw [readProcess, hstart]
  simp only [scanWord_skipSpace, hname]
  rw [if_pos ⟨hproc, hl⟩, hprio]
  rfl

theorem readProcesses_print (prio : ℕ → ℕ) {ls : List ConfigLine} (hls : ∀ l ∈ ls, l.Short) (i : ℕ) :
    readProcesses prio ls.length i (printLines ls) = .ok (ls.map ConfigLine.ldProcess) := by
  induction ls generalizing i with
  | nil => rfl
  | cons l ls ih =>
      obtain ⟨hl, hls⟩ := List.forall_mem_cons.1 hls
      rw [List.length_cons, readProcesses, printLines, List.flatMap_cons,
        readProcess_print (prio i) hl]
      have hrest := ih hls (i + 1)
      rw [← skipSpace_printLines] at hrest
      change (readProcesses prio ls.length (i + 1) (skipSpace (printLines ls))).bind _ = _
      rw [hrest]
      rfl

/-- A file that has run out of lines. -/
theorem readProcesses_of_few (prio : ℕ → ℕ) {ls : List ConfigLine} (hls : ∀ l ∈ ls, l.Short) {n : ℕ}
    (hn : ls.length < n) (i : ℕ) : readProcesses prio n i (printLines ls) = .error .undefined := by
  induction ls generalizing n i with
  | nil =>
      obtain ⟨n, rfl⟩ := Nat.exists_eq_succ_of_ne_zero (Nat.ne_of_gt hn)
      rfl
  | cons l ls ih =>
      obtain ⟨hl, hls⟩ := List.forall_mem_cons.1 hls
      obtain ⟨n, rfl⟩ := Nat.exists_eq_succ_of_ne_zero (Nat.ne_of_gt (Nat.zero_lt_of_lt hn))
      have hrest := ih hls (Nat.lt_of_succ_lt_succ hn) (i + 1)
      rw [← skipSpace_printLines] at hrest
      rw [readProcesses, printLines, List.flatMap_cons, readProcess_print (prio i) hl]
      change (readProcesses prio n (i + 1) (skipSpace (printLines ls))).bind _ = _
      rw [hrest]
      rfl

/-- What has been scanned when an entry is read. -/
theorem readProcess_eq_ok {prio : ℕ} {file t : Text} {p : LdProcess}
    (h : readProcess prio file = .ok (p, t)) :
    ∃ startTime t₁ proc t₂ vs, scanf [.unsigned 64, .space] file = some ([startTime], t₁) ∧
      scanWord t₁ = (some proc, t₂) ∧ (procDir ++ proc).length + 1 ≤ pathSz ∧
      scanf [.space, .unsigned 64, .space] t₂ = some (vs, t) ∧
      p = ⟨procDir ++ proc, startTime, vs[0]?.getD prio⟩ := by
  unfold readProcess at h
  split at h
  · next startTime t₁ hstart =>
      split at h
      · exact absurd h (by simp)
      · next proc t₂ hproc =>
          by_cases hfits : proc.length + 1 ≤ procNameSz ∧ (procDir ++ proc).length + 1 ≤ pathSz
          · simp only [if_pos hfits] at h
            split at h
            · exact absurd h (by simp)
            · next vs t₃ hscan =>
                obtain ⟨rfl, rfl⟩ := Prod.mk.inj (Except.ok.inj h)
                exact ⟨startTime, t₁, proc, t₂, vs, hstart, hproc, hfits.2, hscan, rfl⟩
          · simp only [if_neg hfits] at h
            exact absurd h (by simp)
  · exact absurd h (by simp)

/-- What each entry read has, all have. -/
theorem readProcesses_forall {prio : ℕ → ℕ} {P : LdProcess → Prop}
    (hP : ∀ {i : ℕ} {file t : Text} {p : LdProcess}, readProcess (prio i) file = .ok (p, t) → P p)
    {n i : ℕ} {file : Text} {ps : List LdProcess} (h : readProcesses prio n i file = .ok ps) :
    ps.length = n ∧ ∀ p ∈ ps, P p := by
  induction n generalizing i file ps with
  | zero =>
      obtain rfl := Except.ok.inj h
      exact ⟨rfl, fun _ hp => absurd hp List.not_mem_nil⟩
  | succ n ih =>
      obtain ⟨⟨p, t⟩, hread, h⟩ := bind_eq_ok_iff.1 h
      obtain ⟨ps', hrest, h⟩ := bind_eq_ok_iff.1 h
      obtain rfl := Except.ok.inj h
      obtain ⟨hlen, hall⟩ := ih hrest
      exact ⟨by rw [List.length_cons, hlen], List.forall_mem_cons.2 ⟨hP hread, hall⟩⟩

/-- The path of an entry has gone through its buffer. -/
theorem readProcesses_short {prio : ℕ → ℕ} {n i : ℕ} {file : Text} {ps : List LdProcess}
    (h : readProcesses prio n i file = .ok ps) : ∀ p ∈ ps, p.path.length + 1 ≤ pathSz := by
  refine (readProcesses_forall (fun {_ _ _ p} hread => ?_) h).2
  obtain ⟨startTime, t₁, proc, t₂, vs, -, -, hshort, -, rfl⟩ := readProcess_eq_ok hread
  exact hshort

/-! ## The line of sizes -/

theorem newline_not_mem_decimal (n : ℕ) : '\n' ∉ decimal n := fun hc =>
  absurd (isDigit_of_mem_decimal hc) (by decide)

/-- A number that its argument can hold has at most 20 digits. -/
theorem length_decimal_of_lt {n : ℕ} (hn : n < 2 ^ 64) : (decimal n).length ≤ 20 :=
  length_decimal_le (by decide) (Nat.lt_trans hn (by decide))

theorem readSizes_print (z : ConfigSizes) (t : Text) :
    readSizes (z.print ++ t) = .ok ((z.memramsz, z.memswpsz), t) := by
  obtain ⟨hram, hswp⟩ := List.forall_mem_cons.1 z.lt
  have hnl : '\n' ∉ decimal z.memramsz ++ spaced z.memswpsz := by
    rw [List.mem_append, not_or]
    exact ⟨newline_not_mem_decimal _, newline_not_mem_spaced _⟩
  have hlen : (decimal z.memramsz ++ spaced z.memswpsz).length < configBufSz - 1 := by
    have hfour := length_spaced_le (k := 20) (by decide)
      (fun n hn => Nat.lt_trans (hswp n hn) (by decide))
    have hone := length_decimal_of_lt hram
    rw [z.length_memswpsz] at hfour
    rw [List.length_append]
    unfold configBufSz
    omega
  have hprint : z.print = (decimal z.memramsz ++ spaced z.memswpsz) ++ ['\n'] :=
    (List.append_assoc ..).symm
  have hline : takeLine (configBufSz - 1) (z.print ++ t) = (z.print, t) := by
    rw [hprint, List.append_assoc _ ['\n'] t]
    exact takeLine_append hnl hlen t
  have hscan : scanf (numbers 64 5) z.print = some (z.memramsz :: z.memswpsz, ['\n']) := by
    have hahead : SpaceAhead ['\n'] := ⟨'\n', [], rfl, by decide⟩
    have hread := scanf_numbers z.lt hahead
    rw [List.length_cons, z.length_memswpsz, numbers, List.replicate_succ, ← scanf_unsigned_skipSpace,
      spaced_cons, List.cons_append, skipSpace_cons_space, scanf_unsigned_skipSpace,
      List.append_assoc] at hread
    exact hread
  have hne : z.print ≠ [] := by
    rw [hprint]
    exact List.append_ne_nil_of_right_ne_nil _ (List.cons_ne_nil _ _)
  obtain ⟨a, b, c, d, hlist⟩ := List.length_eq_four.1 z.length_memswpsz
  rw [hlist] at hscan
  rw [readSizes, hline]
  simp only [hne, if_false, hscan, hlist]

/-- The line of a process fits the buffer. -/
theorem takeLine_print {l : ConfigLine} (hl : l.Short) (t : Text) :
    takeLine (configBufSz - 1) (l.print ++ t) = (l.print, t) := by
  have hprint : l.print = (decimal l.startTime ++ ' ' :: (l.name ++ spaced [l.prio])) ++ ['\n'] := by
    simp only [ConfigLine.print, List.append_assoc, List.cons_append]
  have hnl : '\n' ∉ decimal l.startTime ++ ' ' :: (l.name ++ spaced [l.prio]) := by
    simp only [List.mem_append, List.mem_cons, not_or]
    refine ⟨newline_not_mem_decimal _, by decide, ?_, newline_not_mem_spaced _⟩
    intro hmem
    exact absurd (l.isSpace_name _ hmem) (by decide)
  have hlen : (decimal l.startTime ++ ' ' :: (l.name ++ spaced [l.prio])).length < configBufSz - 1 := by
    have hstart := length_decimal_of_lt l.startTime_lt
    have hprio := length_decimal_of_lt l.prio_lt
    unfold ConfigLine.Short pathSz at hl
    rw [List.length_append] at hl
    simp only [List.length_append, List.length_cons, spaced_cons, spaced_nil, List.append_nil,
      configBufSz]
    omega
  rw [hprint, List.append_assoc _ ['\n'] t]
  exact takeLine_append hnl hlen t

theorem ConfigLine.print_ne_nil (l : ConfigLine) : l.print ≠ [] :=
  List.append_ne_nil_of_right_ne_nil _ (List.cons_ne_nil _ _)

/-- A line of a process that is one: the sizes are the default ones. -/
theorem readSizes_of_notSizes {l : ConfigLine} (hl : l.Short) (hnot : l.NotSizes) (t : Text) :
    readSizes (l.print ++ t) = .ok ((defaultSz, [defaultSz, 0, 0, 0]), l.print ++ t) := by
  obtain ⟨vs, t', hscan, hvs⟩ := hnot
  rw [readSizes, takeLine_print hl]
  simp only [l.print_ne_nil, if_false, hscan]
  split
  · exact absurd ‹_› (by simp)
  · obtain rfl : vs = _ := (Prod.mk.inj (Option.some.inj ‹_›)).1
    exact absurd rfl hvs
  · rfl

/-- A process whose name begins with a letter is not taken for the sizes. -/
theorem ConfigLine.notSizes_of_head {l : ConfigLine} {c : Char} {w : Text} (hname : l.name = c :: w)
    (hdigit : c.isDigit = false) (hminus : c ≠ '-') (hplus : c ≠ '+') : l.NotSizes := by
  have hspace : SpaceAhead (' ' :: (l.name ++ (spaced [l.prio] ++ ['\n']))) := ⟨' ', _, rfl, by decide⟩
  have hstart := scanUnsigned_decimal 64 l.startTime (spaceAhead_head hspace)
  have hc : isSpace c = false := l.isSpace_name c (by rw [hname]; exact List.mem_cons_self ..)
  have hstop : scanUnsigned 64 (' ' :: (l.name ++ (spaced [l.prio] ++ ['\n']))) =
      (.mismatch, l.name ++ (spaced [l.prio] ++ ['\n'])) := by
    rw [← scanUnsigned_skipSpace, skipSpace_cons_space, scanUnsigned_skipSpace, hname, List.cons_append,
      scanUnsigned, skipSpace_of_head hc, sign, if_neg hminus, if_neg hplus]
    simp only [List.takeWhile_cons_of_neg (by simp [hdigit] : ¬ c.isDigit = true)]
  rw [if_pos l.startTime_lt] at hstart
  refine ⟨[l.startTime], l.name ++ (spaced [l.prio] ++ ['\n']), ?_, by simp⟩
  rw [print, numbers, List.replicate_succ, scanf, hstart]
  simp only [List.replicate_succ, scanf, hstop, Option.map_some]

/-- One that is taken for the sizes is gone. -/
theorem readSizes_of_sizes {l : ConfigLine} (hl : l.Short) (hsizes : ¬ l.NotSizes) {t t' : Text}
    {sizes : ℕ × List ℕ} (h : readSizes (l.print ++ t) = .ok (sizes, t')) : t' = t := by
  rw [readSizes, takeLine_print hl] at h
  simp only [l.print_ne_nil, if_false] at h
  split at h
  · exact absurd h (by simp)
  · exact (Prod.mk.inj (Except.ok.inj h)).2.symm
  · rename_i r hne hscan
    refine absurd ⟨r.1, r.2, hscan, fun hlen => ?_⟩ hsizes
    obtain ⟨v₀, vs, hcons⟩ := List.exists_cons_of_length_eq_add_one hlen
    rw [hcons] at hlen
    obtain ⟨v₁, v₂, v₃, v₄, rfl⟩ := List.length_eq_four.1 (Nat.succ.inj hlen)
    exact hne v₀ v₁ v₂ v₃ v₄ r.2 (Prod.ext hcons rfl)

/-! ## The file -/

theorem skipSpace_printBody (s : Setup) : skipSpace s.printBody = s.printBody := by
  unfold Setup.printBody
  cases s.sizes with
  | none => exact skipSpace_printLines s.lines
  | some z =>
      rw [Option.map_some, Option.getD_some, ConfigSizes.print, List.append_assoc]
      exact skipSpace_decimal _ _

/-- The first line: a number of processes that does not fit an `int` is undefined. -/
theorem scanInts_print (s : Setup) :
    scanInts 3 s.print =
      if s.lines.length < 2 ^ 31 then some ([s.timeSlot, s.numCpus, s.lines.length], s.printBody)
      else none := by
  have hahead : SpaceAhead ('\n' :: s.printBody) := ⟨'\n', _, rfl, by decide⟩
  have hscan := scanInts_spaced [s.timeSlot, s.numCpus, s.lines.length] hahead
  rw [spacedInts_cons, List.cons_append, skipSpace_cons_space, List.length_cons, scanInts_skipSpace,
    List.append_assoc, skipSpace_cons_newline, skipSpace_printBody] at hscan
  rw [Setup.print]
  refine hscan.trans ?_
  have hcount : FitsInt (s.lines.length : ℤ) ↔ s.lines.length < 2 ^ 31 := by
    unfold FitsInt
    omega
  have hall : (∀ n ∈ [s.timeSlot, s.numCpus, (s.lines.length : ℤ)], FitsInt n) ↔
      s.lines.length < 2 ^ 31 := by
    simp only [List.forall_mem_cons, List.not_mem_nil, false_implies, implies_true, and_true,
      s.timeSlot_fits, s.numCpus_fits, true_and, hcount]
  simp only [hall]

/-- Behind the first line come the sizes and the processes. -/
theorem readConfig_print_iff (prio : ℕ → ℕ) {s : Setup} (hlen : s.lines.length < 2 ^ 31)
    (conf : ReadConfig) :
    readConfig prio (some s.print) = .ok conf ↔ ∃ sizes file procs,
      readSizes s.printBody = .ok (sizes, file) ∧
      readProcesses prio s.lines.length 0 file = .ok procs ∧
      conf = ⟨s.timeSlot, s.numCpus, sizes.1, sizes.2, procs⟩ := by
  have hread : readConfig prio (some s.print) = (readSizes s.printBody).bind fun r =>
      (readProcesses prio s.lines.length 0 r.2).bind fun procs =>
        .ok ⟨s.timeSlot, s.numCpus, r.1.1, r.1.2, procs⟩ := by
    rw [readConfig, scanInts_print, if_pos hlen]
    rfl
  rw [hread]
  constructor
  · intro h
    obtain ⟨⟨sizes, file⟩, hsizes, h⟩ := bind_eq_ok_iff.1 h
    obtain ⟨procs, hprocs, h⟩ := bind_eq_ok_iff.1 h
    exact ⟨sizes, file, procs, hsizes, hprocs, (Except.ok.inj h).symm⟩
  · rintro ⟨sizes, file, procs, hsizes, hprocs, rfl⟩
    rw [hsizes, Except.bind, hprocs]
    rfl

theorem readSizes_printBody {s : Setup} (h : s.Readable) :
    readSizes s.printBody = .ok ((s.conf.memramsz, s.conf.memswpsz), printLines s.lines) := by
  unfold Setup.printBody Setup.conf
  cases hz : s.sizes with
  | some z => exact readSizes_print z _
  | none =>
      obtain ⟨l, ls, hlines, hnot⟩ := h.first hz
      have hl : l.Short := h.short l (by rw [hlines]; exact List.mem_cons_self ..)
      rw [hlines]
      exact readSizes_of_notSizes hl hnot (printLines ls)

/-- Every entry that is read has gone through the buffer for its path, and a first line that is taken
    for the sizes leaves one line too few. -/
theorem Setup.readable_of_read {prio : ℕ → ℕ} {s : Setup}
    (h : readConfig prio (some s.print) = .ok s.conf) : s.Readable := by
  have hlen : s.lines.length < 2 ^ 31 := by
    by_contra hlen
    rw [readConfig, scanInts_print, if_neg hlen] at h
    exact absurd h (by simp)
  obtain ⟨sizes, file, procs, hsizes, hprocs, hconf⟩ := (readConfig_print_iff prio hlen _).1 h
  have hshort : ∀ l ∈ s.lines, l.Short := by
    intro l hl
    have hmap : s.lines.map ConfigLine.ldProcess = procs := congrArg ReadConfig.ldProcesses hconf
    have hmem : l.ldProcess ∈ procs := by
      rw [← hmap]
      exact List.mem_map_of_mem hl
    exact readProcesses_short hprocs _ hmem
  refine ⟨hlen, hshort, fun hz => ?_⟩
  have hbody : s.printBody = printLines s.lines := by rw [printBody, hz]; rfl
  rw [hbody] at hsizes
  cases hlines : s.lines with
  | nil =>
      -- at the end of the file there is nothing the default sizes come from
      have hram : s.conf.memramsz = sizes.1 := congrArg ReadConfig.memramsz hconf
      rw [hlines] at hsizes
      obtain ⟨rfl, -⟩ := Prod.mk.inj (Except.ok.inj hsizes)
      have hdefault : s.conf.memramsz = defaultSz := by rw [conf, hz]; rfl
      exact absurd (hdefault.symm.trans hram) (by decide)
  | cons l ls =>
      rw [hlines] at hshort hsizes hprocs
      obtain ⟨hl, hls⟩ := List.forall_mem_cons.1 hshort
      refine ⟨l, ls, rfl, ?_⟩
      by_contra hnot
      rw [printLines, List.flatMap_cons] at hsizes
      have hfile := readSizes_of_sizes hl hnot hsizes
      rw [hfile] at hprocs
      change readProcesses prio (ls.length + 1) 0 (printLines ls) = _ at hprocs
      rw [readProcesses_of_few prio hls (Nat.lt_succ_self _)] at hprocs
      exact absurd hprocs (by simp)

theorem readConfig_printed (prio : ℕ → ℕ) {s : Setup} (h : s.Readable) :
    readConfig prio (some s.print) = .ok s.conf :=
  (readConfig_print_iff prio h.length _).2 ⟨_, _, _, readSizes_printBody h,
    readProcesses_print prio h.short 0, rfl⟩

/-- **Reading undoes printing** exactly if the names leave room for their directory, the processes can
    be counted, and without a line of sizes the first process is not taken for one. -/
theorem readConfig_reads_back_iff (prio : ℕ → ℕ) (s : Setup) :
    readConfig prio (some s.print) = .ok s.conf ↔ s.Readable :=
  ⟨Setup.readable_of_read, readConfig_printed prio⟩

/-- The line of a process named `1-2-3` begins with five numbers. -/
example : (scanf (numbers 64 5) "0 1-2-3 0".toList).map (·.1.length) = some 5 := by decide +kernel

end Ossim
