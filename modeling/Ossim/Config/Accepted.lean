import Ossim.Config.Printing

set_option autoImplicit false

/-! # What `read_config` accepts

Whatever is in the file: if `read_config` comes to its end, the numbers fit their variables, there are
as many entries as it says, and every path is a file under `input/proc` and fits its buffer. All
configurations like that can be given. -/

namespace Ossim

open Scanf Loader

/-- An entry in order. -/
structure LdProcess.Ok (p : LdProcess) : Prop where
  path : ∃ name, name ≠ [] ∧ (∀ c ∈ name, isSpace c = false) ∧ p.path = procDir ++ name
  short : p.path.length + 1 ≤ pathSz
  startTime : p.startTime < 2 ^ 64
  prio : p.prio < 2 ^ 64

/-- A configuration in order. -/
structure ReadConfig.Ok (conf : ReadConfig) : Prop where
  timeSlot : FitsInt conf.timeSlot
  numCpus : FitsInt conf.numCpus
  memramsz : conf.memramsz < 2 ^ 64
  length_memswpsz : conf.memswpsz.length = 4
  memswpsz : ∀ n ∈ conf.memswpsz, n < 2 ^ 64
  count : conf.ldProcesses.length < 2 ^ 31
  ldProcesses : ∀ p ∈ conf.ldProcesses, p.Ok

/-! ## What is read is in order -/

theorem LdProcess.Ok.line {p : LdProcess} (h : p.Ok) : ∃ l : ConfigLine, l.ldProcess = p ∧ l.Short := by
  obtain ⟨name, hne, hspace, hpath⟩ := h.path
  refine ⟨⟨name, p.startTime, p.prio, hne, hspace, h.startTime, h.prio⟩, ?_, ?_⟩
  · rw [ConfigLine.ldProcess, ← hpath]
  · unfold ConfigLine.Short
    rw [← hpath]
    exact h.short

end Ossim
