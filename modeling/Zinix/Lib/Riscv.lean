import Mathlib.Tactic
import Mathlib.Logic.Relation
import Mathlib.Order.CompletePartialOrder
import Zinix.Lib.OrdMap

/-!
# A RISC-V hart with supervisor traps

The registers, the supervisor registers that a trap uses and the memory of one hart. A
listing of assembly is executed line by line; it calls functions, which are given as a
relation, and interrupts may come before any of its lines while they are enabled.
-/

namespace Zinix.Riscv

abbrev Word := BitVec 64

abbrev Ram := Word → BitVec 8

namespace Ram

variable (mem : Ram)
  {k : ℕ} {mem' : Ram}

/-- The doubleword at an address, in little-endian order. -/
def load (a : Word) : Word :=
  mem (a + 7#64) ++ mem (a + 6#64) ++ mem (a + 5#64) ++ mem (a + 4#64) ++ mem (a + 3#64) ++
    mem (a + 2#64) ++ mem (a + 1#64) ++ mem (a + 0#64)

def store (a w : Word) : Ram := fun b =>
  if (b - a).toNat < 8 then w.extractLsb' (8 * (b - a).toNat) 8 else mem b

/-- The addresses of `n` bytes from `a` on. -/
def bytes (a : Word) (n : ℕ) : Set Word := {b | (b - a).toNat < n}

/-- The address of doubleword `i` after `a`. -/
def slot (a : Word) (i : ℕ) : Word := a + BitVec.ofNat 64 (8 * i)

/-- Doubleword `i` after `a`. -/
def words (a : Word) (i : ℕ) : Word := mem.load (slot a i)

/-- Some of the doublewords after `a` are stored, one after the other. -/
def storeSlots (a : Word) (f : ℕ → Word) (is : List ℕ) : Ram :=
  is.foldl (fun mem i => mem.store (slot a i) (f i)) mem

variable {mem} {a b w : Word} {i j n : ℕ}

theorem mem_bytes : b ∈ bytes a n ↔ (b - a).toNat < n := Iff.rfl

theorem toNat_add_sub (hk : k < 2 ^ 64) : (a + BitVec.ofNat 64 k - a).toNat = k := by
  bv_omega

theorem store_of_notMem (h : b ∉ bytes a 8) : mem.store a w b = mem b := if_neg h

theorem store_at (hk : k < 8) :
    mem.store a w (a + BitVec.ofNat 64 k) = w.extractLsb' (8 * k) 8 := by
  rw [store, toNat_add_sub (by omega), if_pos hk]

theorem append_extractLsb' (w : Word) :
    (w.extractLsb' (8 * 7) 8 ++ w.extractLsb' (8 * 6) 8 ++ w.extractLsb' (8 * 5) 8 ++
      w.extractLsb' (8 * 4) 8 ++ w.extractLsb' (8 * 3) 8 ++ w.extractLsb' (8 * 2) 8 ++
      w.extractLsb' (8 * 1) 8 ++ w.extractLsb' (8 * 0) 8 : Word) = w := by
  ext i hi
  simp only [BitVec.getElem_append, BitVec.getElem_extractLsb']
  split_ifs <;> (rw [← BitVec.getLsbD_eq_getElem hi]; congr 1; omega)

theorem load_store_self : (mem.store a w).load a = w := by
  unfold load
  rw [store_at (k := 0) (by decide), store_at (k := 1) (by decide), store_at (k := 2) (by decide),
    store_at (k := 3) (by decide), store_at (k := 4) (by decide), store_at (k := 5) (by decide),
    store_at (k := 6) (by decide), store_at (k := 7) (by decide)]
  exact append_extractLsb' w

theorem load_congr (h : ∀ b ∈ bytes a 8, mem b = mem' b) :
    mem.load a = mem'.load a := by
  have hbyte : ∀ k < 8, mem (a + BitVec.ofNat 64 k) = mem' (a + BitVec.ofNat 64 k) := by
    intro k hk
    apply h
    rw [mem_bytes, toNat_add_sub (by omega)]
    exact hk
  unfold load
  rw [hbyte 0 (by decide), hbyte 1 (by decide), hbyte 2 (by decide), hbyte 3 (by decide),
    hbyte 4 (by decide), hbyte 5 (by decide), hbyte 6 (by decide), hbyte 7 (by decide)]

theorem bytes_slot_subset (hi : i < n) (hn : 8 * n ≤ 2 ^ 64) :
    bytes (slot a i) 8 ⊆ bytes a (8 * n) := by
  intro b hb
  rw [mem_bytes, slot] at hb
  rw [mem_bytes]
  bv_omega

theorem disjoint_slots (hi : 8 * i + 8 ≤ 2 ^ 64) (hj : 8 * j + 8 ≤ 2 ^ 64) (h : i ≠ j) :
    Disjoint (bytes (slot a i) 8) (bytes (slot a j) 8) := by
  rw [Set.disjoint_left]
  intro b hbi hbj
  rw [mem_bytes, slot] at hbi hbj
  bv_omega

theorem words_store (hi : 8 * i + 8 ≤ 2 ^ 64) (hj : 8 * j + 8 ≤ 2 ^ 64) :
    (mem.store (slot a i) w).words a j = if j = i then w else mem.words a j := by
  by_cases hji : j = i
  · rw [if_pos hji, hji]
    exact load_store_self
  · rw [if_neg hji]
    apply load_congr
    intro b hb
    exact store_of_notMem (Set.disjoint_left.mp (disjoint_slots hj hi hji) hb)

theorem words_congr (hi : i < n) (hn : 8 * n ≤ 2 ^ 64) (h : ∀ b ∈ bytes a (8 * n), mem b = mem' b) :
    mem.words a i = mem'.words a i :=
  load_congr fun b hb => h b (bytes_slot_subset hi hn hb)

section StoreSlots

variable {f : ℕ → Word} {is : List ℕ}

theorem words_storeSlots (his : ∀ i ∈ is, 8 * i + 8 ≤ 2 ^ 64) (hj : 8 * j + 8 ≤ 2 ^ 64) :
    (mem.storeSlots a f is).words a j = if j ∈ is then f j else mem.words a j := by
  induction is generalizing mem with
  | nil => rfl
  | cons i is ih =>
    have hi := his i (List.mem_cons_self ..)
    have hcons : mem.storeSlots a f (i :: is) =
        (mem.store (slot a i) (f i)).storeSlots a f is := rfl
    rw [hcons, ih fun k hk => his k (List.mem_cons_of_mem _ hk), words_store hi hj]
    by_cases hmem : j ∈ is
    · rw [if_pos hmem, if_pos (List.mem_cons_of_mem _ hmem)]
    · by_cases hji : j = i
      · subst hji
        rw [if_neg hmem, if_pos rfl, if_pos (List.mem_cons_self ..)]
      · rw [if_neg hmem, if_neg hji, if_neg (by simp [hji, hmem])]

theorem storeSlots_of_notMem (his : ∀ i ∈ is, i < n) (hn : 8 * n ≤ 2 ^ 64)
    (hb : b ∉ bytes a (8 * n)) : mem.storeSlots a f is b = mem b := by
  induction is generalizing mem with
  | nil => rfl
  | cons i is ih =>
    have hi := his i (List.mem_cons_self ..)
    refine (ih fun k hk => his k (List.mem_cons_of_mem _ hk)).trans ?_
    exact store_of_notMem fun hin => hb (bytes_slot_subset hi hn hin)

theorem storeSlots_append (is js : List ℕ) :
    mem.storeSlots a f (is ++ js) = (mem.storeSlots a f is).storeSlots a f js :=
  List.foldl_append

end StoreSlots

end Ram

def setBit (w : Word) (i : ℕ) (b : Bool) : Word :=
  if b then w ||| BitVec.twoPow 64 i else w &&& ~~~BitVec.twoPow 64 i

theorem getLsbD_setBit {w : Word} {i : ℕ} {b : Bool} (hi : i < 64) (j : ℕ) :
    (setBit w i b).getLsbD j = if j = i then b else w.getLsbD j := by
  unfold setBit
  by_cases hj : j < 64
  · cases b <;> by_cases hji : j = i <;> simp [hj, hji, hi]
  · have hne : j ≠ i := by omega
    rw [if_neg hne, BitVec.getLsbD_of_ge _ _ (by omega), BitVec.getLsbD_of_ge _ _ (by omega)]

abbrev Reg := Fin 32

instance neZero_regs : NeZero 32 := ⟨by decide⟩

namespace Reg

abbrev zero : Reg := 0

abbrev ra : Reg := 1

abbrev sp : Reg := 2

abbrev a0 : Reg := 10

abbrev a1 : Reg := 11

end Reg

inductive Csr where
  | sstatus
  | sepc
  | scause
  | sscratch
  deriving DecidableEq

inductive Mode where
  | user
  | supervisor
  deriving DecidableEq

structure Hart where
  x : Reg → Word
  csr : Csr → Word
  mode : Mode
  pc : Word
  mem : Ram

/-- The positions in `sstatus` of the bits that a trap uses. -/
def sieBit : ℕ := 1

def spieBit : ℕ := 5

def sppBit : ℕ := 8

namespace Hart

variable (m : Hart)

def reg (r : Reg) : Word := if r = .zero then 0 else m.x r

def setReg (r : Reg) (v : Word) : Hart := { m with x := replaceAt m.x r v }

def setCsr (c : Csr) (v : Word) : Hart := { m with csr := replaceAt m.csr c v }

def sie : Bool := (m.csr .sstatus).getLsbD sieBit

def Interruptible : Prop := m.mode = .user ∨ m.sie = true

/-- What the hart does when it takes a trap, up to the first line of the handler. -/
def takeTrap (cause : Word) : Hart :=
  let status := setBit (m.csr .sstatus) spieBit m.sie
  let status := setBit (setBit status sieBit false) sppBit (m.mode = .supervisor)
  { (((m.setCsr .sstatus status).setCsr .sepc m.pc).setCsr .scause cause) with
    mode := .supervisor }

def sret : Hart :=
  let old := m.csr .sstatus
  let status := setBit (setBit (setBit old sieBit (old.getLsbD spieBit)) spieBit true) sppBit false
  { (m.setCsr .sstatus status) with
    mode := if old.getLsbD sppBit then .supervisor else .user
    pc := m.csr .sepc }

variable {m} {r r' : Reg} {c c' : Csr} {v cause : Word}

@[simp] theorem reg_setReg_self (h : r ≠ .zero) : (m.setReg r v).reg r = v := by
  rw [reg, if_neg h]
  exact replaceAt_self

theorem reg_setReg_of_ne (h : r' ≠ r) : (m.setReg r v).reg r' = m.reg r' := by
  have hx : (m.setReg r v).x r' = m.x r' := replaceAt_of_ne h
  rw [reg, reg, hx]

@[simp] theorem csr_setReg : (m.setReg r v).csr = m.csr := rfl

@[simp] theorem mem_setReg : (m.setReg r v).mem = m.mem := rfl

@[simp] theorem mode_setReg : (m.setReg r v).mode = m.mode := rfl

@[simp] theorem pc_setReg : (m.setReg r v).pc = m.pc := rfl

@[simp] theorem reg_setCsr : (m.setCsr c v).reg = m.reg := rfl

@[simp] theorem mem_setCsr : (m.setCsr c v).mem = m.mem := rfl

@[simp] theorem mode_setCsr : (m.setCsr c v).mode = m.mode := rfl

@[simp] theorem pc_setCsr : (m.setCsr c v).pc = m.pc := rfl

@[simp] theorem csr_setCsr_self : (m.setCsr c v).csr c = v := replaceAt_self

theorem csr_setCsr_of_ne (h : c' ≠ c) : (m.setCsr c v).csr c' = m.csr c' := replaceAt_of_ne h

section Sret

@[simp] theorem reg_sret : m.sret.reg = m.reg := rfl

@[simp] theorem mem_sret : m.sret.mem = m.mem := rfl

@[simp] theorem pc_sret : m.sret.pc = m.csr .sepc := rfl

theorem csr_sret_of_ne (h : c ≠ .sstatus) : m.sret.csr c = m.csr c := replaceAt_of_ne h

end Sret

section TakeTrap

variable {e : Hart}

@[simp] theorem reg_takeTrap : (m.takeTrap cause).reg = m.reg := rfl

@[simp] theorem sscratch_takeTrap : (m.takeTrap cause).csr .sscratch = m.csr .sscratch := rfl

theorem getLsbD_sstatus_takeTrap (j : ℕ) : ((m.takeTrap cause).csr .sstatus).getLsbD j =
    if j = sppBit then decide (m.mode = .supervisor) else
      if j = sieBit then false else if j = spieBit then m.sie else (m.csr .sstatus).getLsbD j := by
  have hstatus : (m.takeTrap cause).csr .sstatus =
      setBit (setBit (setBit (m.csr .sstatus) spieBit m.sie) sieBit false) sppBit
        (m.mode = .supervisor) := rfl
  rw [hstatus, getLsbD_setBit (by decide), getLsbD_setBit (by decide), getLsbD_setBit (by decide)]

theorem sie_takeTrap : (m.takeTrap cause).sie = false := by
  rw [sie, getLsbD_sstatus_takeTrap]
  rfl

/-- A return restores the mode and the interrupts that the trap has found. -/
theorem mode_sret (h : e.csr .sstatus = (m.takeTrap cause).csr .sstatus) :
    e.sret.mode = m.mode := by
  unfold sret
  dsimp only
  rw [h, getLsbD_sstatus_takeTrap, if_pos rfl]
  cases m.mode with
  | user => rfl
  | supervisor => rfl

theorem sstatus_sret (h : e.csr .sstatus = (m.takeTrap cause).csr .sstatus) :
    e.sret.csr .sstatus = setBit (setBit (m.csr .sstatus) spieBit true) sppBit false := by
  have hstatus : e.sret.csr .sstatus = setBit (setBit (setBit (e.csr .sstatus) sieBit
      ((e.csr .sstatus).getLsbD spieBit)) spieBit true) sppBit false := rfl
  rw [hstatus, h]
  apply BitVec.eq_of_getLsbD_eq
  intro j _
  simp only [getLsbD_setBit (show sppBit < 64 by decide),
    getLsbD_setBit (show spieBit < 64 by decide), getLsbD_setBit (show sieBit < 64 by decide),
    getLsbD_sstatus_takeTrap]
  by_cases hspp : j = sppBit
  · rw [if_pos hspp, if_pos hspp]
  · by_cases hspie : j = spieBit
    · simp [hspie]
    · by_cases hsie : j = sieBit
      · subst hsie
        simp [sppBit, spieBit, sieBit, sie]
      · simp [hspp, hspie, hsie]

end TakeTrap

end Hart

inductive Op where
  | csrrw (rd : Reg) (csr : Csr) (rs : Reg)
  | csrr (rd : Reg) (csr : Csr)
  | csrw (csr : Csr) (rs : Reg)
  | addi (rd rs : Reg) (imm : ℤ)
  | mv (rd rs : Reg)
  | sd (rs : Reg) (off : ℤ) (base : Reg)
  | ld (rd : Reg) (off : ℤ) (base : Reg)
  deriving DecidableEq

def Op.exec (m : Hart) : Op → Hart
  | .csrrw rd csr rs => (m.setCsr csr (m.reg rs)).setReg rd (m.csr csr)
  | .csrr rd csr => m.setReg rd (m.csr csr)
  | .csrw csr rs => m.setCsr csr (m.reg rs)
  | .addi rd rs imm => m.setReg rd (m.reg rs + BitVec.ofInt 64 imm)
  | .mv rd rs => m.setReg rd (m.reg rs)
  | .sd rs off base => { m with mem := m.mem.store (m.reg base + BitVec.ofInt 64 off) (m.reg rs) }
  | .ld rd off base => m.setReg rd (m.mem.load (m.reg base + BitVec.ofInt 64 off))

def Op.csrWritten : Op → Option Csr
  | .csrrw _ csr _ => some csr
  | .csrw csr _ => some csr
  | _ => none

def execAll (m : Hart) (ops : List Op) : Hart := ops.foldl Op.exec m

section Exec

variable {m : Hart} {o : Op} {ops : List Op}
  {c : Csr}

@[simp] theorem execAll_nil : execAll m [] = m := rfl

@[simp] theorem execAll_cons : execAll m (o :: ops) = execAll (o.exec m) ops := rfl

theorem execAll_append (ops' : List Op) :
    execAll m (ops ++ ops') = execAll (execAll m ops) ops' := List.foldl_append

theorem Op.mode_exec (m : Hart) (o : Op) : (o.exec m).mode = m.mode := by
  cases o <;> rfl

theorem Op.csr_exec_of_ne (h : o.csrWritten ≠ some c) : (o.exec m).csr c = m.csr c := by
  cases o with
  | csrrw rd csr rs => exact m.csr_setCsr_of_ne fun heq => h (congrArg some heq.symm)
  | csrw csr rs => exact m.csr_setCsr_of_ne fun heq => h (congrArg some heq.symm)
  | _ => rfl

theorem mode_execAll (m : Hart) (ops : List Op) : (execAll m ops).mode = m.mode := by
  induction ops generalizing m with
  | nil => rfl
  | cons o ops ih => rw [execAll_cons, ih, o.mode_exec]

theorem csr_execAll_of_ne (h : ∀ o ∈ ops, o.csrWritten ≠ some c) :
    (execAll m ops).csr c = m.csr c := by
  induction ops generalizing m with
  | nil => rfl
  | cons o ops ih =>
    rw [execAll_cons, ih fun k hk => h k (List.mem_cons_of_mem _ hk),
      Op.csr_exec_of_ne (h o (List.mem_cons_self ..))]

theorem interruptible_execAll (h : ∀ o ∈ ops, o.csrWritten ≠ some .sstatus) :
    (execAll m ops).Interruptible ↔ m.Interruptible := by
  rw [Hart.Interruptible, Hart.Interruptible, Hart.sie, Hart.sie, mode_execAll,
    csr_execAll_of_ne h]

end Exec

inductive Line (L F : Type) where
  | label (l : L)
  | op (o : Op)
  | bnez (rs : Reg) (l : L)
  | bgez (rs : Reg) (l : L)
  | j (l : L)
  | jal (f : F)
  | sret

section Listing

variable {L F : Type} [DecidableEq L]

def fromLabel (l : L) : List (Line L F) → List (Line L F)
  | [] => []
  | .label l' :: c => if l' = l then .label l' :: c else fromLabel l c
  | _ :: c => fromLabel l c

/-- What the execution of a listing depends on: the listing itself, the addresses of
its parts, what the functions do, and what an interrupt does from where it is taken
to its return. -/
structure Setting (L F : Type) where
  listing : List (Line L F)
  place : List (Line L F) → Word
  calls : F → Hart → Hart → Prop
  interrupt : Hart → Hart → Prop

def Hart.call (m : Hart) (ret : Word) : Hart := m.setReg .ra ret

section Call

variable (m : Hart) (ret : Word)

end Call

/-- An interrupt before the first line of `c`. -/
def Setting.Tick (S : Setting L F) (c : List (Line L F)) (m m' : Hart) : Prop :=
  m.Interruptible ∧ S.interrupt { m with pc := S.place c } m' ∧ m'.pc = S.place c

/-- A run of the rest of a listing, up to the return from the trap. A function returns
to the line after its call, with the stack pointer as it was. -/
inductive Setting.Run (S : Setting L F) : List (Line L F) → Hart → Hart → Prop where
  | label {l c m m'} (h : S.Run c m m') : S.Run (.label l :: c) m m'
  | op {o c m m'} (h : S.Run c (o.exec m) m') : S.Run (.op o :: c) m m'
  | bnez {rs l c m m'}
      (h : S.Run (if m.reg rs ≠ 0 then fromLabel l S.listing else c) m m') :
      S.Run (.bnez rs l :: c) m m'
  | bgez {rs l c m m'}
      (h : S.Run (if 0 ≤ (m.reg rs).toInt then fromLabel l S.listing else c) m m') :
      S.Run (.bgez rs l :: c) m m'
  | j {l c m m'} (h : S.Run (fromLabel l S.listing) m m') : S.Run (.j l :: c) m m'
  | jal {f c m m₁ m'} (hcall : S.calls f (m.call (S.place c)) m₁) (hpc : m₁.pc = S.place c)
      (hsp : m₁.reg .sp = m.reg .sp) (h : S.Run c m₁ m') : S.Run (.jal f :: c) m m'
  | sret {c m} : S.Run (.sret :: c) m m.sret
  | tick {c m m₁ m'} (htick : S.Tick c m m₁) (h : S.Run c m₁ m') : S.Run c m m'

namespace Setting

variable {S : Setting L F} {c : List (Line L F)} {m m' : Hart} {l : L} {rs : Reg} {f : F}
  {ops : List Op}

/-- The first line of a listing is executed and the rest follows. -/
def Fires (S : Setting L F) : List (Line L F) → Hart → Hart → Prop
  | [], _, _ => False
  | .label _ :: c, m, m' => S.Run c m m'
  | .op o :: c, m, m' => S.Run c (o.exec m) m'
  | .bnez rs l :: c, m, m' => S.Run (if m.reg rs ≠ 0 then fromLabel l S.listing else c) m m'
  | .bgez rs l :: c, m, m' =>
    S.Run (if 0 ≤ (m.reg rs).toInt then fromLabel l S.listing else c) m m'
  | .j l :: _, m, m' => S.Run (fromLabel l S.listing) m m'
  | .jal f :: c, m, m' => ∃ m₁, S.calls f (m.call (S.place c)) m₁ ∧ m₁.pc = S.place c ∧
      m₁.reg .sp = m.reg .sp ∧ S.Run c m₁ m'
  | .sret :: _, m, m' => m' = m.sret

theorem Run.fires (h : S.Run c m m') :
    ∃ m₀, Relation.ReflTransGen (S.Tick c) m m₀ ∧ S.Fires c m₀ m' := by
  induction h with
  | label h _ => exact ⟨_, .refl, h⟩
  | op h _ => exact ⟨_, .refl, h⟩
  | bnez h _ => exact ⟨_, .refl, h⟩
  | bgez h _ => exact ⟨_, .refl, h⟩
  | j h _ => exact ⟨_, .refl, h⟩
  | jal hcall hpc hsp h _ => exact ⟨_, .refl, _, hcall, hpc, hsp, h⟩
  | sret => exact ⟨_, .refl, rfl⟩
  | tick htick _ ih =>
    obtain ⟨m₀, hticks, hfires⟩ := ih
    exact ⟨m₀, .head htick hticks, hfires⟩

theorem Fires.run (h : S.Fires c m m') : S.Run c m m' := by
  match c with
  | .label _ :: _ => exact .label h
  | .op _ :: _ => exact .op h
  | .bnez _ _ :: _ => exact .bnez h
  | .bgez _ _ :: _ => exact .bgez h
  | .j _ :: _ => exact .j h
  | .jal _ :: _ =>
    obtain ⟨m₁, hcall, hpc, hsp, h⟩ := h
    exact .jal hcall hpc hsp h
  | .sret :: _ =>
    obtain rfl : m' = m.sret := h
    exact .sret

theorem run_iff_fires (hm : ¬m.Interruptible) : S.Run c m m' ↔ S.Fires c m m' := by
  refine ⟨fun h => ?_, Fires.run⟩
  obtain ⟨m₀, hticks, hfires⟩ := h.fires
  rcases hticks.cases_head with rfl | ⟨m₁, htick, -⟩
  · exact hfires
  · exact absurd htick.1 hm

theorem run_ops_iff (hm : ¬m.Interruptible) (hops : ∀ o ∈ ops, o.csrWritten ≠ some .sstatus) :
    S.Run (ops.map .op ++ c) m m' ↔ S.Run c (execAll m ops) m' := by
  induction ops generalizing m with
  | nil => rfl
  | cons o ops ih =>
    have ho : ∀ k ∈ [o], k.csrWritten ≠ some .sstatus := by
      intro k hk
      exact hops k (List.mem_cons.mpr (.inl (List.mem_singleton.mp hk)))
    have hnext : ¬(o.exec m).Interruptible := fun hi => hm ((interruptible_execAll ho).mp hi)
    rw [List.map_cons, List.cons_append, run_iff_fires hm, Fires,
      ih hnext fun k hk => hops k (List.mem_cons_of_mem _ hk), execAll_cons]

theorem Run.of_ops (h : S.Run c (execAll m ops) m') :
    S.Run (ops.map .op ++ c) m m' := by
  induction ops generalizing m with
  | nil => exact h
  | cons o ops ih => exact .op (ih h)

end Setting

end Listing

end Zinix.Riscv
