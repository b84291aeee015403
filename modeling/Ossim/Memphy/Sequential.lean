import Ossim.Memphy.Proofs

set_option autoImplicit false

/-! # Sequential devices (`mm-memphy.c`)

Accesses to a device made by `init_memphy`, random-access or sequential, as its users see them. A
random-access device is a store of bytes. A sequential one refuses every access: `MEMPHY_read` and
`MEMPHY_write` send it to the sequential routines, and these test its mode the wrong way round. On the
devices that pass their test they do what the others do, and leave the cursor at the address. -/

namespace Ossim

/-! ## Accesses -/

inductive Access where
  | read (addr : ℕ)
  | write (addr : ℕ) (data : Byte)

def Access.addr : Access → ℕ
  | .read addr => addr
  | .write addr _ => addr

/-- The status of an access, and the value it has read. -/
structure Outcome where
  status : ℤ
  value : Option Byte
  deriving DecidableEq

namespace Memphy

/-- An access to a device. -/
def access (mp : Memphy) : Access → Outcome × Memphy
  | .read addr =>
    let r := memphyRead mp addr
    (⟨if r.1.isSome then 0 else -1, r.1⟩, r.2)
  | .write addr data =>
    let r := memphyWrite mp addr data
    (⟨r.1, none⟩, r.2)

/-- The outcomes of accesses, each with the cursor after it. -/
def accesses (mp : Memphy) : List Access → List (Outcome × ℤ)
  | [] => []
  | a :: as => ((mp.access a).1, (mp.access a).2.cursor) :: (mp.access a).2.accesses as

end Memphy

/-- An access to a store of bytes. -/
def storeAccess (store : ℕ → Byte) : Access → Outcome × (ℕ → Byte)
  | .read addr => (⟨0, some (store addr)⟩, store)
  | .write addr data => (⟨0, none⟩, Function.update store addr data)

def storeAccesses (store : ℕ → Byte) : List Access → List Outcome
  | [] => []
  | a :: as => (storeAccess store a).1 :: storeAccesses (storeAccess store a).2 as

/-- A sequential device and a random-access one of `n` bytes have the outcomes of a store, and the
    cursor of the sequential one follows the addresses. -/
structure Interchangeable (mpSeq mpRnd : Memphy) (n : ℕ) (as : List Access) : Prop where
  same : ((initMemphy mpSeq n false).accesses as).map Prod.fst =
    ((initMemphy mpRnd n true).accesses as).map Prod.fst
  store : ((initMemphy mpRnd n true).accesses as).map Prod.fst = storeAccesses (fun _ => 0) as
  cursor : ((initMemphy mpSeq n false).accesses as).map Prod.snd = as.map fun a => (a.addr : ℤ)

/-! ## Random-access devices -/

/-- A random-access device with the content of a store. -/
structure Memphy.Stores (mp : Memphy) (store : ℕ → Byte) : Prop where
  rdm : mp.rdmflg = true
  storage : mp.storage = store

theorem Memphy.Stores.access {mp : Memphy} {store : ℕ → Byte} (h : mp.Stores store) {a : Access}
    (ha : a.addr < mp.storageSz) :
    (mp.access a).1 = (storeAccess store a).1 ∧ (mp.access a).2.Stores (storeAccess store a).2 := by
  cases a with
  | read addr => simp [Memphy.access, memphyRead, storeAccess, h.rdm, h.storage, h]
  | write addr data =>
      have ha' : addr < mp.storageSz := ha
      have hpoke : (mp.poke addr data).Stores (Function.update store addr data) := by
        rw [Memphy.poke, if_pos ha']
        exact ⟨h.rdm, by rw [h.storage]⟩
      simpa [Memphy.access, memphyWrite, storeAccess, h.rdm] using hpoke

theorem Memphy.access_storageSz (mp : Memphy) (a : Access) :
    (mp.access a).2.storageSz = mp.storageSz := by
  cases a with
  | read addr =>
      simp only [Memphy.access, memphyRead, memphySeqRead, memphyMvCsr]
      split_ifs <;> rfl
  | write addr data => exact memphyWrite_storageSz ..

theorem Memphy.Stores.accesses {mp : Memphy} {store : ℕ → Byte} (h : mp.Stores store)
    {as : List Access} (has : ∀ a ∈ as, a.addr < mp.storageSz) :
    (mp.accesses as).map Prod.fst = storeAccesses store as := by
  induction as generalizing mp store with
  | nil => rfl
  | cons a as ih =>
      obtain ⟨ha, has⟩ := List.forall_mem_cons.1 has
      obtain ⟨hout, hnext⟩ := h.access ha
      rw [← mp.access_storageSz a] at has
      rw [Memphy.accesses, List.map_cons, storeAccesses, hout, ih hnext has]

theorem initMemphy_stores (mp : Memphy) (n : ℕ) : (initMemphy mp n true).Stores fun _ => 0 := by
  refine ⟨rfl, ?_⟩
  simp only [initMemphy, memphyFormat]
  split_ifs <;> rfl

theorem initMemphy_storageSz (mp : Memphy) (n : ℕ) (randomflg : Bool) :
    (initMemphy mp n randomflg).storageSz = n := by
  simp only [initMemphy, memphyFormat]
  split_ifs <;> rfl

/-! ## Sequential devices -/

/-- No access to a sequential device succeeds, and none leaves a trace. -/
theorem Memphy.access_sequential {mp : Memphy} (h : mp.rdmflg = false) (a : Access) :
    mp.access a = (⟨-1, none⟩, mp) := by
  cases a <;> simp [Memphy.access, memphyRead, memphySeqRead, memphyWrite, memphySeqWrite, h]

theorem Memphy.accesses_sequential {mp : Memphy} (h : mp.rdmflg = false) (as : List Access) :
    mp.accesses as = as.map fun _ => (⟨-1, none⟩, mp.cursor) := by
  induction as with
  | nil => rfl
  | cons a as ih => rw [Memphy.accesses, Memphy.access_sequential h, ih, List.map_cons]

/-- The steps take the cursor to an address of the device. -/
theorem memphyMvCsr_cursor (mp : Memphy) {addr : ℕ} (h : (addr : ℤ) < mp.maxsz) :
    (memphyMvCsr mp addr).cursor = addr := by
  have hsteps : ∀ k : ℕ, (k : ℤ) < mp.maxsz → (fun c => (c + 1) % mp.maxsz)^[k] 0 = (k : ℤ) := by
    intro k hk
    induction k with
    | zero => rfl
    | succ k ih =>
        rw [Function.iterate_succ_apply', ih (by omega), Int.emod_eq_of_lt (by omega) (by omega)]
        push_cast
        rfl
  have hmin : min addr mp.maxsz.toNat = addr := by omega
  rw [memphyMvCsr, hmin]
  exact hsteps addr h

/-- What the sequential routines do behind their test. -/
theorem memphySeq_of_rdmflg {mp : Memphy} (h : mp.rdmflg = true) {addr : ℕ}
    (haddr : (addr : ℤ) < mp.maxsz) (data : Byte) :
    memphySeqRead mp addr = ((memphyRead mp addr).1, { mp with cursor := addr }) ∧
      memphySeqWrite mp addr data = (0, { (memphyWrite mp addr data).2 with cursor := addr }) := by
  have hcsr : memphyMvCsr mp addr = { mp with cursor := addr } := by
    rw [← memphyMvCsr_cursor mp haddr]
    rfl
  constructor
  · simp [memphySeqRead, memphyRead, h, hcsr]
  · have htest : ¬ (!mp.rdmflg) = true := by rw [h]; decide
    rw [memphySeqWrite, if_neg htest, hcsr, memphyWrite, if_pos h, Memphy.poke, Memphy.poke]
    split_ifs <;> rfl

/-! ## Comparison -/

/-- **The two kinds of devices are interchangeable** as long as they are not used. -/
theorem interchangeable_iff (mpSeq mpRnd : Memphy) {n : ℕ} {as : List Access}
    (has : ∀ a ∈ as, a.addr < n) : Interchangeable mpSeq mpRnd n as ↔ as = [] := by
  have hrnd : ((initMemphy mpRnd n true).accesses as).map Prod.fst =
      storeAccesses (fun _ => 0) as := by
    refine (initMemphy_stores mpRnd n).accesses ?_
    rwa [initMemphy_storageSz]
  have hmode : (initMemphy mpSeq n false).rdmflg = false := rfl
  have hseq := Memphy.accesses_sequential hmode as
  constructor
  · rintro ⟨hsame, -, -⟩
    rw [hrnd, hseq] at hsame
    cases as with
    | nil => rfl
    | cons a as =>
        rw [List.map_cons, List.map_cons, storeAccesses] at hsame
        have hstatus := congrArg Outcome.status (List.head_eq_of_cons_eq hsame)
        cases a <;> exact absurd hstatus (by simp [storeAccess])
  · rintro rfl
    exact ⟨rfl, rfl, rfl⟩

/-- A sequential device of one frame refuses to be read. -/
theorem not_interchangeable_read : ¬ Interchangeable zeroMemphy zeroMemphy 256 [.read 0] := by
  intro h
  exact absurd h.same (by decide)

/-- One of four bytes does not keep what is written to it. -/
theorem not_interchangeable_write :
    ¬ Interchangeable zeroMemphy zeroMemphy 4 [.write 3 7, .read 3] :=
  mt (interchangeable_iff zeroMemphy zeroMemphy (by decide)).1 (by simp)

end Ossim
