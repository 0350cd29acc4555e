import Zinix.Lib.Trace
import Zinix.Mm.VmaSpec

/-!
# Isolation of page tables

A user page table shares the tables below all but the first two entries of the kernel root.
-/

namespace Zinix

open Program

def pageIndices (vaddr : ℕ) : List (Fin 512) :=
  [addrGetPpn2 vaddr, addrGetPpn1 vaddr, addrGetPpn0 vaddr]

namespace Phys

/-- The walk of the memory management unit with pages of every size: the leaf entry
it ends in and the number of levels below that entry. -/
def leafFrom (p : Phys) (pg : Frame) : List (Fin 512) → Option (ℕ × PTE)
  | [] => none
  | index :: rest =>
    let e := PTE.ofWord (p.mem pg index)
    if e.valid then
      if e.isLeaf then some (rest.length, e) else p.leafFrom e.frame rest
    else
      none

/-- The physical address that an address leads to and the flags of its leaf entry.
A large page that is not aligned to its size is a fault. -/
def mapped (p : Phys) (pt vaddr : ℕ) : Option (ℕ × BitVec 8) := do
  let root ← (p.tables pt).head?
  let (level, e) ← p.leafFrom root (pageIndices vaddr)
  let size := pageSize * 512 ^ level
  if e.getPointPaddr % size = 0 then some (e.getPointPaddr + vaddr % size, e.flags) else none

def visits (p : Phys) (pg : Frame) : List (Fin 512) → List Frame
  | [] => []
  | index :: rest =>
    let e := PTE.ofWord (p.mem pg index)
    pg :: if e.valid && !e.isLeaf then p.visits e.frame rest else []

def KernelTable (p : Phys) (f : Frame) : Prop :=
  ∃ vaddr, f ∈ p.visits (p.root kernelPagetable) (pageIndices vaddr)

end Phys

inductive TableCall where
  | mapOnePage (pg : Frame) (flags : BitVec 8)
  | unmapOnePage
  | changeMapFlags (flags : BitVec 8)
  | walkAlloc

def TableCall.run (pt vaddr : ℕ) : TableCall → Program Phys Unit
  | .mapOnePage pg flags => do
    let _ ← PageTable.mapOnePage pt vaddr pg flags
  | .unmapOnePage => do
    let _ ← PageTable.unmapOnePage pt vaddr
  | .changeMapFlags flags => do
    let _ ← PageTable.changeMapFlags pt vaddr flags
  | .walkAlloc => do
    let _ ← PageTable.walkAlloc pt vaddr

inductive TableOp where
  | newUser
  | call (pt vaddr : ℕ) (c : TableCall)

structure TableSystem where
  phys : Phys
  users : List ℕ

namespace TableSystem

/-- What can happen to the page tables: a new one is made, or one of them is called
on for a page below `USER_SPACE_END`. A panic ends the run. -/
inductive Step : TableSystem → TableOp → TableSystem → Prop
  | newUser {s : TableSystem} {pt : ℕ} {p' : Phys}
    (h : PageTable.newUser s.phys = .ok (pt, p')) : Step s .newUser ⟨p', pt :: s.users⟩
  | call {s : TableSystem} {pt vaddr : ℕ} {c : TableCall} {p' : Phys} (hpt : pt ∈ s.users)
    (hv : vaddr < userSpaceEnd) (h : c.run pt vaddr s.phys = .ok ((), p')) :
    Step s (.call pt vaddr c) ⟨p', s.users⟩

def On (op : TableOp) (u : ℕ) : Prop :=
  match op with
  | .newUser => False
  | .call pt _ _ => pt = u

end TableSystem

/-- The kernel has a page table, and its tables are live. -/
structure KernelOk (p : Phys) : Prop where
  made : kernelPagetable < p.tableCnt
  head : (p.tables kernelPagetable).head? = some (p.root kernelPagetable)
  live : ∀ f, p.KernelTable f → f ∈ p.live

/-- Work that writes to the listed frames of a page table and to fresh ones. -/
structure Confined (p p' : Phys) (pt : ℕ) (pgs : List Frame) : Prop where
  others : ∀ q, q ≠ pt → p'.tables q = p.tables q
  fresh : ∀ f ∈ p'.tables pt, f ∈ pgs ∨ f ∉ p.live
  live : ∀ f ∈ p.live, f ∈ p'.live
  mem : ∀ f ∈ p.live, f ∉ pgs → p'.mem f = p.mem f
  cnt : p.tableCnt ≤ p'.tableCnt

section Walk

variable {p p' : Phys} {pg : Frame} {idx : List (Fin 512)}
  {pt vaddr : ℕ} {i : Fin 512} {f root : Frame}

theorem Phys.leafFrom_congr (h : ∀ f ∈ p.visits pg idx, p'.mem f = p.mem f) :
    p'.leafFrom pg idx = p.leafFrom pg idx := by
  induction idx generalizing pg with
  | nil => rfl
  | cons i rest ih =>
    have hpg : p'.mem pg = p.mem pg := h pg (by simp [visits])
    simp only [leafFrom, hpg]
    cases hvalid : (PTE.ofWord (p.mem pg i)).valid with
    | false => simp only [Bool.false_eq_true, if_false]
    | true =>
      cases hleaf : (PTE.ofWord (p.mem pg i)).isLeaf with
      | true => simp only [if_true]
      | false =>
        simp only [if_true, Bool.false_eq_true, if_false]
        apply ih
        intro f hf
        exact h f (by simp [visits, hvalid, hleaf, hf])

theorem Phys.visits_congr (h : ∀ f ∈ p.visits pg idx, p'.mem f = p.mem f) :
    p'.visits pg idx = p.visits pg idx := by
  induction idx generalizing pg with
  | nil => rfl
  | cons i rest ih =>
    have hpg : p'.mem pg = p.mem pg := h pg (by simp [visits])
    simp only [visits, hpg]
    cases hdir : (PTE.ofWord (p.mem pg i)).valid && !(PTE.ofWord (p.mem pg i)).isLeaf with
    | false => simp only [Bool.false_eq_true, if_false]
    | true =>
      simp only [if_true]
      rw [ih]
      intro f hf
      exact h f (by simp [visits, hdir, hf])

theorem Phys.mapped_congr (htables : p'.tables pt = p.tables pt)
    (hhead : (p.tables pt).head? = some (p.root pt))
    (h : ∀ f ∈ p.visits (p.root pt) (pageIndices vaddr), p'.mem f = p.mem f) :
    p'.mapped pt vaddr = p.mapped pt vaddr := by
  simp only [mapped, htables, hhead, Option.bind_eq_bind, Option.bind_some, leafFrom_congr h]

theorem Phys.root_congr (h : p'.tables pt = p.tables pt) : p'.root pt = p.root pt := by
  rw [root, root, h]

theorem Phys.mem_visits_cons (hf : f ∈ p.visits pg (i :: idx)) :
    f = pg ∨ ∃ g, (entryAt p.mem pg i).next = some g ∧ f ∈ p.visits g idx := by
  rw [visits, List.mem_cons] at hf
  rcases hf with rfl | hf
  · exact .inl rfl
  · split_ifs at hf with hdir
    · simp only [Bool.and_eq_true] at hdir
      exact .inr ⟨_, by rw [PTE.next, entryAt, if_pos hdir.1], hf⟩
    · cases hf

/-- Below an owned entry the walk stays within the tables of the page table. -/
theorem PtOk.visits_mem {own : Fin 512 → Prop} (h : PtOk own p pt) (hv : own (addrGetPpn2 vaddr))
    (hf : f ∈ p.visits (p.root pt) (pageIndices vaddr)) : f ∈ p.tables pt := by
  rcases Phys.mem_visits_cons hf with rfl | ⟨m, hm, hf⟩
  · exact h.tree.mem_pgs [] trivial _ rfl
  have hmid : tableAt p.mem (p.root pt) [addrGetPpn2 vaddr] = some m := hm
  rcases Phys.mem_visits_cons hf with rfl | ⟨g, hg, hf⟩
  · exact h.tree.mem_pgs [addrGetPpn2 vaddr] hv _ hmid
  have hlow : tableAt p.mem (p.root pt) [addrGetPpn1 vaddr, addrGetPpn2 vaddr] = some g := by
    rw [tableAt, hmid, Option.bind_some, hg]
  rcases Phys.mem_visits_cons hf with rfl | ⟨_, _, hf⟩
  · exact h.tree.mem_pgs [addrGetPpn1 vaddr, addrGetPpn2 vaddr] hv _ hlow
  · cases hf

/-- Through an entry that two roots share, the walks read the same tables. -/
theorem Phys.mem_visits_of_shared (hshared : p.mem pg i = p.mem root i)
    (hf : f ∈ p.visits pg (i :: idx)) :
    f = pg ∨ f ∈ p.visits root (i :: idx) := by
  rw [visits, List.mem_cons] at hf ⊢
  rw [hshared] at hf
  rcases hf with hf | hf
  · exact .inl hf
  · exact .inr (.inr hf)

theorem Phys.leafFrom_of_shared (h : p.mem pg i = p.mem root i) :
    p.leafFrom pg (i :: idx) = p.leafFrom root (i :: idx) := by
  simp only [leafFrom, h]

end Walk

/-- The user page tables own their tables: no two of them have one in common, none
is a table of the kernel, and their other root entries are those of the kernel. -/
structure Isolated (s : TableSystem) : Prop where
  kernel : KernelOk s.phys
  known : ∀ u ∈ s.users, kernelPagetable < u ∧ u < s.phys.tableCnt
  owned : ∀ u ∈ s.users, PtOk userOwn s.phys u
  copied : ∀ u ∈ s.users, ∀ i, ¬userOwn i →
    s.phys.mem (s.phys.root u) i = s.phys.mem (s.phys.root kernelPagetable) i
  apart : ∀ u ∈ s.users, ∀ w ∈ s.users, u ≠ w → ∀ f ∈ s.phys.tables u, f ∉ s.phys.tables w
  clear : ∀ u ∈ s.users, ∀ f ∈ s.phys.tables u, ¬s.phys.KernelTable f

/-- The frames in the list are neither tables of the kernel nor of users other than
`pt`. -/
structure Private (s : TableSystem) (pt : ℕ) (pgs : List Frame) : Prop where
  kernel : pt ≠ kernelPagetable
  notKernel : ∀ f ∈ pgs, ¬s.phys.KernelTable f
  notUser : ∀ u ∈ s.users, u ≠ pt → ∀ f ∈ s.phys.tables u, f ∉ pgs

section Steps

variable {s : TableSystem} {p' : Phys} {pt u vaddr : ℕ} {pgs : List Frame}
  {p : Phys}

theorem Phys.root_kernelTable (p : Phys) : p.KernelTable (p.root kernelPagetable) :=
  ⟨0, by simp [pageIndices, visits]⟩

theorem Isolated.private_of_mem (h : Isolated s) (hpt : pt ∈ s.users) :
    Private s pt (s.phys.tables pt) where
  kernel := (h.known pt hpt).1.ne'
  notKernel := h.clear pt hpt
  notUser := fun u hu hne => h.apart u hu pt hpt hne

theorem Isolated.private_new (h : Isolated s) : Private s s.phys.tableCnt [] where
  kernel := h.kernel.made.ne'
  notKernel := by simp
  notUser := by simp

namespace Confined

variable {f : Frame}

theorem mem_kernel (hc : Confined s.phys p' pt pgs) (h : Isolated s) (hp : Private s pt pgs)
    (hf : s.phys.KernelTable f) : p'.mem f = s.phys.mem f :=
  hc.mem f (h.kernel.live f hf) fun hmem => hp.notKernel f hmem hf

theorem mem_user (hc : Confined s.phys p' pt pgs) (h : Isolated s) (hp : Private s pt pgs)
    (hu : u ∈ s.users) (hne : u ≠ pt) (hf : f ∈ s.phys.tables u) :
    p'.mem f = s.phys.mem f :=
  hc.mem f ((h.owned u hu).live f hf) (hp.notUser u hu hne f hf)

theorem root_kernel (hc : Confined s.phys p' pt pgs) (hp : Private s pt pgs) :
    p'.root kernelPagetable = s.phys.root kernelPagetable :=
  Phys.root_congr (hc.others _ hp.kernel.symm)

theorem kernelTable_iff (hc : Confined s.phys p' pt pgs) (h : Isolated s)
    (hp : Private s pt pgs) (f : Frame) : p'.KernelTable f ↔ s.phys.KernelTable f := by
  unfold Phys.KernelTable
  rw [hc.root_kernel hp]
  apply exists_congr
  intro v
  rw [Phys.visits_congr fun g hg => hc.mem_kernel h hp ⟨v, hg⟩]

theorem mapped_kernel (hc : Confined s.phys p' pt pgs) (h : Isolated s) (hp : Private s pt pgs)
    (vaddr : ℕ) : p'.mapped kernelPagetable vaddr = s.phys.mapped kernelPagetable vaddr :=
  Phys.mapped_congr (hc.others _ hp.kernel.symm) h.kernel.head
    fun _ hf => hc.mem_kernel h hp ⟨vaddr, hf⟩

end Confined

theorem Isolated.visits_user (h : Isolated s) (hu : u ∈ s.users) {f : Frame}
    (hf : f ∈ s.phys.visits (s.phys.root u) (pageIndices vaddr)) :
    f ∈ s.phys.tables u ∨ s.phys.KernelTable f := by
  by_cases hown : userOwn (addrGetPpn2 vaddr)
  · exact .inl ((h.owned u hu).visits_mem hown hf)
  · rcases Phys.mem_visits_of_shared (h.copied u hu _ hown) hf with rfl | hf
    · exact .inl ((h.owned u hu).tree.mem_pgs [] trivial _ rfl)
    · exact .inr ⟨vaddr, hf⟩

theorem Confined.mapped_user (hc : Confined s.phys p' pt pgs) (h : Isolated s)
    (hp : Private s pt pgs) (hu : u ∈ s.users) (hne : u ≠ pt) (vaddr : ℕ) :
    p'.mapped u vaddr = s.phys.mapped u vaddr := by
  refine Phys.mapped_congr (hc.others u hne) (h.owned u hu).head ?_
  intro f hf
  rcases h.visits_user hu hf with hf | hf
  · exact hc.mem_user h hp hu hne hf
  · exact hc.mem_kernel h hp hf

/-- Beyond the entries it owns, a user page table leads where the kernel's does. -/
theorem Isolated.mapped_eq_kernel (h : Isolated s) (hu : u ∈ s.users)
    (hv : ¬userOwn (addrGetPpn2 vaddr)) :
    s.phys.mapped u vaddr = s.phys.mapped kernelPagetable vaddr := by
  have hleaf : s.phys.leafFrom (s.phys.root u) (pageIndices vaddr) =
      s.phys.leafFrom (s.phys.root kernelPagetable) (pageIndices vaddr) :=
    Phys.leafFrom_of_shared (h.copied u hu _ hv)
  simp only [Phys.mapped, (h.owned u hu).head, h.kernel.head, Option.bind_eq_bind,
    Option.bind_some, hleaf]

/-- Confined work on `pt` keeps the page tables apart if it leaves `pt` itself in order. -/
theorem Isolated.of_confined (h : Isolated s) (hc : Confined s.phys p' pt pgs)
    (hp : Private s pt pgs) {users : List ℕ} (husers : ∀ u ∈ users, u ∈ s.users ∨ u = pt)
    (hcnt : pt < p'.tableCnt) (hok : PtOk userOwn p' pt)
    (hcopied : ∀ i, ¬userOwn i →
      p'.mem (p'.root pt) i = s.phys.mem (s.phys.root kernelPagetable) i) :
    Isolated ⟨p', users⟩ := by
  have hold : ∀ u ∈ users, u ≠ pt → u ∈ s.users := by
    intro u hu hne
    exact (husers u hu).resolve_right hne
  have hkroot : p'.mem (p'.root kernelPagetable) = s.phys.mem (s.phys.root kernelPagetable) := by
    rw [hc.root_kernel hp, hc.mem_kernel h hp s.phys.root_kernelTable]
  -- a table of `pt` is private to it
  have hpriv : ∀ f ∈ p'.tables pt, ¬s.phys.KernelTable f ∧
      ∀ u ∈ users, u ≠ pt → f ∉ p'.tables u := by
    intro f hf
    rcases hc.fresh f hf with hf | hf
    · refine ⟨hp.notKernel f hf, ?_⟩
      intro u hu hne hfu
      rw [hc.others u hne] at hfu
      exact hp.notUser u (hold u hu hne) hne f hfu hf
    · refine ⟨fun hk => hf (h.kernel.live f hk), ?_⟩
      intro u hu hne hfu
      rw [hc.others u hne] at hfu
      exact hf ((h.owned u (hold u hu hne)).live f hfu)
  constructor
  · refine ⟨h.kernel.made.trans_le hc.cnt, ?_, ?_⟩
    · rw [hc.root_kernel hp, hc.others _ hp.kernel.symm, h.kernel.head]
    · intro f hf
      exact hc.live f (h.kernel.live f ((hc.kernelTable_iff h hp f).mp hf))
  · intro u hu
    by_cases hne : u = pt
    · subst hne
      exact ⟨Nat.pos_of_ne_zero hp.kernel, hcnt⟩
    · obtain ⟨hpos, hlt⟩ := h.known u (hold u hu hne)
      exact ⟨hpos, hlt.trans_le hc.cnt⟩
  · intro u hu
    by_cases hne : u = pt
    · rw [hne]
      exact hok
    · exact (h.owned u (hold u hu hne)).congr (hc.others u hne)
        (fun f hf => hc.mem_user h hp (hold u hu hne) hne hf)
        (fun f hf => hc.live f ((h.owned u (hold u hu hne)).live f hf))
  · intro u hu i hi
    simp only [hkroot]
    by_cases hne : u = pt
    · rw [hne, hcopied i hi]
    · have hroot := (h.owned u (hold u hu hne)).tree.mem_pgs [] trivial _ rfl
      rw [Phys.root_congr (hc.others u hne), hc.mem_user h hp (hold u hu hne) hne hroot,
        h.copied u (hold u hu hne) i hi]
  · intro u hu w hw huw f hf
    by_cases hne : u = pt
    · subst hne
      exact (hpriv f hf).2 w hw huw.symm
    · intro hfw
      by_cases hne' : w = pt
      · subst hne'
        exact (hpriv f hfw).2 u hu hne hf
      · simp only [hc.others u hne] at hf
        simp only [hc.others w hne'] at hfw
        exact h.apart u (hold u hu hne) w (hold w hw hne') huw f hf hfw
  · intro u hu f hf hk
    rw [hc.kernelTable_iff h hp] at hk
    by_cases hne : u = pt
    · subst hne
      exact (hpriv f hf).1 hk
    · simp only [hc.others u hne] at hf
      exact h.clear u (hold u hu hne) f hf hk

theorem Grows.confined (h : Grows p p' pt) : Confined p p' pt (p.tables pt) :=
  ⟨h.others, h.fresh, h.live, h.mem, h.cnt.ge⟩

theorem Phys.withUser_confined {root : Frame} (hroot : root ∉ p.live) :
    Confined p (p.withUser root) p.tableCnt [] := by
  constructor
  · exact fun q hq => replaceAt_of_ne hq
  · intro f hf
    simp only [withUser, replaceAt_self, List.mem_singleton] at hf
    subst hf
    exact .inr hroot
  · exact fun f hf => Finset.mem_insert_of_mem hf
  · intro f hf _
    have hne : f ≠ root := ne_of_mem_of_not_mem hf hroot
    simp only [withUser, replaceAt_of_ne hne]
    exact replaceAt_of_ne hne
  · exact Nat.le_succ _

/-- Every call works within its page table, and leaves the entries of the root that
are not its own. -/
theorem TableCall.run_sat {own : Fin 512 → Prop} (h : PtOk own p pt) (hv : own (addrGetPpn2 vaddr))
    (c : TableCall) :
    Sat (c.run pt vaddr) p (fun _ p' => PtOk own p' pt ∧ Grows p p' pt ∧ KeepsRest own p p' pt)
      fun _ => True := by
  cases c with
  | mapOnePage pg flags =>
    refine ((PageTable.mapOnePage_sat h hv pg flags).weaken fun _ _ => trivial).bind ?_
    rintro _ p' ⟨-, -, ⟨-, -, hq⟩ | ⟨-, -, hr⟩⟩
    · exact sat_pure ⟨hq.ok, hq.grows, hq.rest⟩
    · exact sat_pure ⟨hr.ok, hr.grows, hr.rest⟩
  | unmapOnePage =>
    refine ((PageTable.unmapOnePage_sat h hv).weaken fun _ _ => trivial).bind ?_
    rintro _ p' ⟨-, -, hr⟩
    exact sat_pure ⟨hr.ok, hr.grows, hr.rest⟩
  | changeMapFlags flags =>
    refine (PageTable.changeMapFlags_sat h hv flags).bind ?_
    rintro _ p' (⟨_, _, hq⟩ | ⟨_, _, hr⟩)
    · exact sat_pure ⟨hq.ok, hq.grows, hq.rest⟩
    · exact sat_pure ⟨hr.ok, hr.grows, hr.rest⟩
  | walkAlloc =>
    refine ((PageTable.walkAlloc_sat h hv).weaken fun _ _ => trivial).bind ?_
    rintro _ p' ⟨⟨hq, -, -⟩, -⟩
    exact sat_pure ⟨hq.ok, hq.grows, hq.rest⟩

namespace TableSystem

variable {s' : TableSystem} {op : TableOp}

/-- Each step is confined work on some page table that only the step is on. -/
theorem Step.confined (h : Isolated s) (hstep : Step s op s') :
    Isolated s' ∧ ∃ pt pgs, Confined s.phys s'.phys pt pgs ∧ Private s pt pgs ∧
      ∀ u ∈ s.users, ¬On op u → u ≠ pt := by
  cases hstep with
  | @newUser pt p' hnew =>
    have hkernel : s.phys.tables kernelPagetable ≠ [] := by
      intro hnil
      have hhead := h.kernel.head
      rw [hnil] at hhead
      cases hhead
    have hsat := PageTable.newUser_withUser hkernel
    have hareas := PageTable.newUser_sat hkernel
    rw [Sat, hnew] at hsat hareas
    obtain ⟨-, rfl, root, hroot, rfl⟩ := hsat
    obtain ⟨_, _, hok, _⟩ := hareas
    have hc := Phys.withUser_confined hroot
    refine ⟨h.of_confined hc h.private_new ?_ (Nat.lt_succ_self _) hok.table ?_,
      _, _, hc, h.private_new, ?_⟩
    · intro u hu
      exact (List.mem_cons.mp hu).symm
    · intro i hi
      have hi : ¬(i = 0 ∨ i = 1) := by
        rintro (rfl | rfl) <;> simp [userOwn] at hi
      have hne : s.phys.root kernelPagetable ≠ root :=
        ne_of_mem_of_not_mem (h.kernel.live _ s.phys.root_kernelTable) hroot
      have hnew : (s.phys.withUser root).root s.phys.tableCnt = root := by
        simp [Phys.root, Phys.withUser]
      rw [hnew]
      simp only [Phys.withUser, replaceAt_self, if_neg hi]
      rw [Phys.allocated]
      exact congrFun (replaceAt_of_ne hne) i
    · intro u hu _
      exact (h.known u hu).2.ne
  | @call pt vaddr c p' hpt hv hrun =>
    have hsat := c.run_sat (h.owned pt hpt) (userOwn_of_lt hv)
    rw [Sat, hrun] at hsat
    obtain ⟨hok, hgrows, hrest⟩ := hsat
    have hp := h.private_of_mem hpt
    have hc := hgrows.confined
    refine ⟨h.of_confined hc hp (fun u hu => .inl hu) ?_ hok ?_, pt, _, hc, hp, ?_⟩
    · exact (h.known pt hpt).2.trans_le hc.cnt
    · intro i hi
      rw [hrest i hi, hgrows.root_eq (h.owned pt hpt).head, h.copied pt hpt i hi]
    · intro u _ hon hne
      exact hon hne.symm

theorem Step.isolated (h : Isolated s) (hstep : Step s op s') : Isolated s' :=
  (Step.confined h hstep).1

theorem Step.mapped_kernel (h : Isolated s) (hstep : Step s op s') (vaddr : ℕ) :
    s'.phys.mapped kernelPagetable vaddr = s.phys.mapped kernelPagetable vaddr := by
  obtain ⟨_, _, _, hc, hp, _⟩ := Step.confined h hstep
  exact hc.mapped_kernel h hp vaddr

theorem Step.mapped_user (h : Isolated s) (hstep : Step s op s') (hu : u ∈ s.users)
    (hon : ¬On op u) (vaddr : ℕ) : s'.phys.mapped u vaddr = s.phys.mapped u vaddr := by
  obtain ⟨_, _, _, hc, hp, hne⟩ := Step.confined h hstep
  exact hc.mapped_user h hp hu (hne u hu hon) vaddr

theorem isolated_start {p : Phys} (h : KernelOk p) : Isolated ⟨p, []⟩ :=
  ⟨h, by simp, by simp, by simp, by simp, by simp⟩

/-- In every run from a state without users, no step changes where an address leads in
the kernel's page table or in that of a user it is not on, and beyond the low 2 GiB
every user page table keeps leading where the kernel's did. -/
theorem isolated_of_isRun {p₀ : Phys} (h₀ : KernelOk p₀) {r : List (TableOp × TableSystem)}
    (hrun : Trace.IsRun Step ⟨p₀, []⟩ r) :
    ∀ s ∈ Trace.states ⟨p₀, []⟩ r,
      (∀ u ∈ s.users, ∀ vaddr, 2 ≤ (addrGetPpn2 vaddr).val →
        s.phys.mapped u vaddr = p₀.mapped kernelPagetable vaddr) ∧
      ∀ op s', Step s op s' →
        (∀ vaddr, s'.phys.mapped kernelPagetable vaddr = s.phys.mapped kernelPagetable vaddr) ∧
        ∀ u ∈ s.users, ¬On op u → ∀ vaddr, s'.phys.mapped u vaddr = s.phys.mapped u vaddr := by
  have hinv := Trace.invariant
    (fun s => Isolated s ∧
      ∀ vaddr, s.phys.mapped kernelPagetable vaddr = p₀.mapped kernelPagetable vaddr)
    (fun s op s' ⟨h, hk⟩ hstep => ⟨Step.isolated h hstep, fun v =>
      (Step.mapped_kernel h hstep v).trans (hk v)⟩)
    ⟨isolated_start h₀, fun _ => rfl⟩ hrun
  intro s hs
  obtain ⟨h, hk⟩ := hinv s hs
  refine ⟨?_, ?_⟩
  · intro u hu v hv
    rw [h.mapped_eq_kernel hu (Nat.not_lt.mpr hv), hk v]
  · intro op s' hstep
    exact ⟨Step.mapped_kernel h hstep, fun u hu hon => Step.mapped_user h hstep hu hon⟩

/-- Memory in which the kernel maps its half by large pages at the root. -/
def kernelMapped : Phys :=
  { Phys.bare with
    mem := fun f i => if f = 0 ∧ 256 ≤ i.val then (PTE.leaf 0 0xcf).toWord else 0 }

theorem kernelOk_kernelMapped : KernelOk kernelMapped := by
  refine ⟨by decide, rfl, ?_⟩
  rintro f ⟨vaddr, hf⟩
  have hleaf : ∀ i, ((PTE.ofWord (kernelMapped.mem 0 i)).valid &&
      !(PTE.ofWord (kernelMapped.mem 0 i)).isLeaf) = false := by
    intro i
    simp only [kernelMapped, true_and]
    split_ifs
    · rw [PTE.ofWord_toWord]
      rfl
    · rfl
  have hroot : kernelMapped.root kernelPagetable = 0 := rfl
  simp only [hroot, pageIndices, Phys.visits, hleaf, Bool.false_eq_true, if_false,
    List.mem_singleton] at hf
  subst hf
  exact Finset.mem_singleton_self _

def twoUsers : Program Phys ℕ := do
  let first ← PageTable.newUser
  let _ ← PageTable.newUser
  (TableCall.mapOnePage 5 0xff).run 1 0x1000
  return first

theorem isolated_of_isRun_twoUsers :
    ∃ r, Trace.IsRun Step ⟨kernelMapped, []⟩ r ∧
      r.map Prod.fst = [.newUser, .newUser, .call 1 0x1000 (.mapOnePage 5 0xff)] ∧
      ∀ s ∈ Trace.states ⟨kernelMapped, []⟩ r,
        (∀ u ∈ s.users, ∀ vaddr, 2 ≤ (addrGetPpn2 vaddr).val →
          s.phys.mapped u vaddr = kernelMapped.mapped kernelPagetable vaddr) ∧
        ∀ op s', Step s op s' →
          (∀ vaddr, s'.phys.mapped kernelPagetable vaddr = s.phys.mapped kernelPagetable vaddr) ∧
          ∀ u ∈ s.users, ¬On op u → ∀ vaddr, s'.phys.mapped u vaddr = s.phys.mapped u vaddr := by
  have hfst : (twoUsers kernelMapped).map Prod.fst = .ok 1 := by decide +kernel
  obtain ⟨p₃, hp₃⟩ : ∃ p₃, twoUsers kernelMapped = .ok (1, p₃) := by
    cases h : twoUsers kernelMapped with
    | error e => simp [h, Except.map] at hfst
    | ok x =>
      simp only [h, Except.map, Except.ok.injEq] at hfst
      exact ⟨x.2, by rw [← hfst]⟩
  unfold twoUsers at hp₃
  simp only [bind_apply, Checked.bind_eq_ok, Prod.exists] at hp₃
  obtain ⟨first, p₁, hnew₁, second, p₂, hnew₂, _, p₃', hmap, hret⟩ := hp₃
  cases hret
  have hrun : Trace.IsRun Step ⟨kernelMapped, []⟩
      [(.newUser, ⟨p₁, [1]⟩), (.newUser, ⟨p₂, [second, 1]⟩),
        (.call 1 0x1000 (.mapOnePage 5 0xff), ⟨p₃, [second, 1]⟩)] :=
    ⟨.newUser hnew₁, .newUser hnew₂, .call (by simp) (by decide) hmap, trivial⟩
  exact ⟨_, hrun, rfl, isolated_of_isRun kernelOk_kernelMapped hrun⟩

end TableSystem

end Steps

end Zinix
