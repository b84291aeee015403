import Ossim.System

set_option autoImplicit false

/-! # READ does not deliver what was read

`run` executes READ through `libread`, which passes the address of a local byte down to `pg_getval`.
The system call puts the byte it reads into the register block, and `pg_getval` drops it: the local
byte is never written. `libread` then stores it through the address of an operand of the copy of the
instruction. So neither the register READ names nor the value `libread` reports depends on memory. -/

namespace Ossim

/-- The byte in a register of a process. -/
def System.regByte (s : System) (pid d : ℕ) : Option Byte :=
  (s.procs pid).map fun proc => byteOfAddr (proc.regs d)

/-- The byte `libread` reports in `*destination` for the process's READ of a region. -/
def System.reportedByte (host : Host) (s : System) (pid source offset : ℕ) : Option Byte :=
  (s.caller pid).map fun c => byteOfAddr (libread host c.incPc (uint32 source) offset).2.1

/-- Process `pid` writes byte `v` at offset `offset` of region `rg`, instructions of any process
    follow, and it reads the same place into register `d`; both accesses succeed. -/
structure ReadAfterWrite (host : Host) (pid rg offset d : ℕ) (v : Byte) (s₀ s₁ s₂ s₃ : System) :
    Prop where
  reg_lt : d < numRegs
  write : ∃ data x, byteOfAddr data = v ∧ s₀.fetch pid = some ⟨.write, data, rg, offset, x⟩
  write_ok : s₀.run host pid = some (0, s₁)
  between : SysRun host s₁ s₂
  read : ∃ x, s₂.fetch pid = some ⟨.read, rg, offset, d, x⟩
  read_ok : s₂.run host pid = some (0, s₃)

/-- READ delivers `v`: the register holds it, and `libread` reports it. -/
def ReadsBack (host : Host) (pid rg offset d : ℕ) (v : Byte) (s₂ s₃ : System) : Prop :=
  s₃.regByte pid d = some v ∧ s₂.reportedByte host pid rg offset = some v

theorem libread_byte (host : Host) (c : Caller) (source offset : ℕ) :
    byteOfAddr (libread host c source offset).2.1 = host.data := by
  change byteOfAddr (uint32 (addrOfByte host.data)) = host.data
  generalize host.data = b
  revert b
  decide

/-- READ leaves the registers as they were. -/
theorem regByte_of_read {host : Host} {s s' : System} {pid rg offset d x : ℕ} {st : ℤ}
    (hfetch : s.fetch pid = some ⟨.read, rg, offset, d, x⟩) (hrun : s.run host pid = some (st, s'))
    (e : ℕ) : s'.regByte pid e = s.regByte pid e := by
  obtain ⟨c, c', hc, hstep, rfl⟩ := System.run_eq_some hrun
  rw [System.fetch_of_caller hc] at hfetch
  rw [run, hfetch] at hstep
  obtain rfl : (read host c.incPc (uint32 rg) offset).2 = c' :=
    congrArg Prod.snd (Option.some.inj hstep)
  have hproc := (read_same host c.incPc (uint32 rg) offset).proc
  simp only [System.regByte, System.put, Function.update_self, (System.caller_eq_some hc).1,
    Option.map_some, hproc]
  rfl

/-- **READ after WRITE.** Whatever was written, READ delivers it exactly if the register held it
    already and the uninitialised byte of `libread` happens to be it. -/
theorem readsBack_iff {host : Host} {pid rg offset d : ℕ} {v : Byte} {s₀ s₁ s₂ s₃ : System}
    (h : ReadAfterWrite host pid rg offset d v s₀ s₁ s₂ s₃) :
    ReadsBack host pid rg offset d v s₂ s₃ ↔ s₂.regByte pid d = some v ∧ host.data = v := by
  obtain ⟨x, hfetch⟩ := h.read
  obtain ⟨c, -, hc, -, -⟩ := System.run_eq_some h.read_ok
  rw [ReadsBack, regByte_of_read hfetch h.read_ok, System.reportedByte, hc]
  simp only [Option.map_some, Option.some.injEq, libread_byte]

/-- A process that allocates a region, writes a byte into it and reads it into register 1. -/
def readBackCode (data : ℕ) : List Inst :=
  [⟨.alloc, 300, 0, 0, 0⟩, ⟨.write, data, 0, 5, 0⟩, ⟨.read, 0, 5, 1, 0⟩]

theorem readBackCode_scenario {data : ℕ} {v : Byte} (hv : byteOfAddr data = v)
    (hok : let s₀ := (twoProcs 2 1 fun _ => readBackCode data).next generousHost 1
      let s₁ := s₀.next generousHost 1
      s₀.fetch 1 = some ⟨.write, data, 0, 5, 0⟩ ∧ (s₀.run generousHost 1).map Prod.fst = some 0 ∧
      s₁.fetch 1 = some ⟨.read, 0, 5, 1, 0⟩ ∧ (s₁.run generousHost 1).map Prod.fst = some 0) :
    let s₀ := (twoProcs 2 1 fun _ => readBackCode data).next generousHost 1
    let s₁ := s₀.next generousHost 1
    ReadAfterWrite generousHost 1 0 5 1 v s₀ s₁ s₁ (s₁.next generousHost 1) := by
  obtain ⟨hwrite, hwrite_ok, hread, hread_ok⟩ := hok
  exact ⟨by decide, ⟨data, 0, hv, hwrite⟩, System.run_next hwrite_ok, .refl _, ⟨0, hread⟩,
    System.run_next hread_ok⟩

/-- The byte 0 is read back, by luck. -/
theorem readsBack_iff_zero :
    let s₀ := (twoProcs 2 1 fun _ => readBackCode 0).next generousHost 1
    let s₁ := s₀.next generousHost 1
    ReadsBack generousHost 1 0 5 1 0 s₁ (s₁.next generousHost 1) := by
  intro s₀ s₁
  have h := @readBackCode_scenario 0 0 (by decide) (by decide +kernel)
  exact (readsBack_iff h).2 ⟨by decide +kernel, rfl⟩

/-- An instruction of a process that may write the byte at an offset of one of its regions, or that
    frees or allocates the region. -/
def Inst.Disturbs (ins : Inst) (rg offset : ℕ) : Prop :=
  match ins.opcode with
  | .alloc => uint32 ins.arg1 = rg
  | .free => uint32 ins.arg0 = rg
  | .write => uint32 ins.arg1 = rg ∧ ins.arg2 = offset
  | .copyFromUser | .copyToUser =>
    uint32 ins.arg1 = rg ∧ ∃ i < uint32 ins.arg3, uint32 (uint32 ins.arg2 + i) = offset
  | _ => False

/-- Instructions of any process, none of which disturbs the byte: no system call, and of process `pid` none
    that may write it or gives its region away. -/
inductive QuietRun (host : Host) (pid rg offset : ℕ) : System → System → Prop where
  | refl (s : System) : QuietRun host pid rg offset s s
  | step {s s' s'' : System} {p : ℕ} {st : ℤ} (h : QuietRun host pid rg offset s s')
      (hquiet : ∀ ins, s'.fetch p = some ins →
        ins.opcode ≠ .syscall ∧ (p = pid → ¬ ins.Disturbs (uint32 rg) offset))
      (hrun : s'.run host p = some (st, s'')) : QuietRun host pid rg offset s s''

/-- **READ after WRITE fails.** The byte 7 is not, although nothing comes in between that could write it or
    give the region away. -/
theorem not_readsBack_seven :
    ¬ ∀ (host : Host) (b s₀ s₁ s₂ s₃ : System) (pid rg offset d : ℕ) (v : Byte), Booted b →
      FramesHeld b → SysRun host b s₀ → ReadAfterWrite host pid rg offset d v s₀ s₁ s₂ s₃ →
      QuietRun host pid rg offset s₁ s₂ → ReadsBack host pid rg offset d v s₂ s₃ := by
  intro hall
  have h := @readBackCode_scenario 7 7 (by decide) (by decide +kernel)
  have hboot : (twoProcs 2 1 fun _ => readBackCode 7).run generousHost 1 = some (0, _) :=
    System.run_next (by decide +kernel)
  have hback := hall generousHost _ _ _ _ _ 1 0 5 1 7 (twoProcs_booted (by decide) (by decide) _)
    (twoProcs_framesHeld 2 1 _) (.step (.refl _) hboot) h (.refl _)
  exact absurd hback.1 (by decide +kernel)

end Ossim
