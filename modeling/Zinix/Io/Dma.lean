import Zinix.Lib.Cursor
import Zinix.Mm.PagesSafe
import Zinix.Mm.Phys

/-!
# Buffers of the block device

A buffer is a block of pages, whose size is the next power of two, and the list `DMA_FMS`
keeps it alive. When a buffer is given back, the number of its pages is compared with the
size of the block. The lock of the list is left out.
-/

namespace Zinix

variable {pages : ℕ}

def pages2order (pages : ℕ) : ℕ :=
  ((List.range maxOrder).find? fun i => decide (pages ≤ order2pages i)).getD maxOrder

def PageSys.getBlockPageCnt (s : PageSys) (pg : ℕ) : Checked ℕ := do
  let ret := (s.pages pg).friends.length + 1
  Checked.ensure ((s.pages pg).isLeader = true ∨ ret = 1) .assertion
  return ret

/-- The pages and `DMA_FMS`, whose entries are handles to pages. -/
structure DmaSys where
  sys : PageSys
  fms : List ℕ

namespace DmaSys

def dmaFmsInsert (s : DmaSys) (pg : ℕ) : DmaSys := { s with fms := s.fms ++ [pg] }

def dmaFmsRemove (s : DmaSys) (vaddr : ℕ) : Checked (ℕ × DmaSys) :=
  let visit := fun pg => if (s.sys.pages pg).vaddr = vaddr then Visit.stop else Visit.pass
  match Cursor.seek visit (s.fms.length + 1) (Cursor.front s.fms) with
  | none => throw .diverges
  | some c =>
    match c.removeCurrent with
    | (some pg, c) => return (pg, { s with fms := c.toList })
    | (none, _) => throw (.explicit "remove dma fail")

def virtioDmaAlloc (s : DmaSys) (pages : ℕ) : Checked (ℕ × DmaSys) := do
  let (pg, sys) ← s.sys.allocPages (pages2order pages)
  let pg ← Checked.unwrap pg
  let s := dmaFmsInsert { s with sys := sys.clone pg } pg
  let paddr ← subUsize (s.sys.pages pg).vaddr phyMemOffset
  -- the handle of the function itself goes at its end
  let sys ← s.sys.drop pg
  return (paddr, { s with sys := sys })

def virtioDmaDealloc (s : DmaSys) (paddr pages : ℕ) : Checked (ℤ × DmaSys) := do
  let vaddr ← addUsize paddr phyMemOffset
  let (pg, s) ← s.dmaFmsRemove vaddr
  let cnt ← s.sys.getBlockPageCnt pg
  Checked.ensure (cnt = pages) .assertion
  let sys ← s.sys.drop pg
  return (0, { s with sys := sys })

end DmaSys

/-- The system together with the buffers that the driver has: where each begins, and how many
pages were asked for. -/
structure Buffers where
  dma : DmaSys
  live : List (ℕ × ℕ)

inductive BufferAction where
  | alloc (pages : ℕ)
  | dealloc (paddr pages : ℕ)

namespace Buffers

/-- Buffers of up to 1024 pages are asked for, and those that the driver has are given back. -/
def Enabled (s : Buffers) : BufferAction → Prop
  | .alloc pages => 1 ≤ pages ∧ pages ≤ 1024
  | .dealloc paddr pages => (paddr, pages) ∈ s.live

instance (s : Buffers) (a : BufferAction) : Decidable (s.Enabled a) := by
  cases a <;> unfold Enabled <;> infer_instance

def exec (s : Buffers) : BufferAction → Checked Buffers
  | .alloc pages => do
    let (paddr, dma) ← s.dma.virtioDmaAlloc pages
    return ⟨dma, s.live ++ [(paddr, pages)]⟩
  | .dealloc paddr pages => do
    let (_, dma) ← s.dma.virtioDmaDealloc paddr pages
    return ⟨dma, s.live.erase (paddr, pages)⟩

def Step (s : Buffers) (a : BufferAction) (t : Buffers) : Prop := s.Enabled a ∧ s.exec a = .ok t

end Buffers

/-- The page leads a live block that begins where the buffer does and has enough pages. -/
structure PageSys.Covers (s : PageSys) (pg : ℕ) (buffer : ℕ × ℕ) : Prop where
  live : s.live pg = true
  leader : (s.pages pg).isLeader = true
  vaddr : (s.pages pg).vaddr = buffer.1 + phyMemOffset
  enough : buffer.2 ≤ order2pages (s.pages pg).order

/-- The block of the page is free again, its pages are gone, and nothing else has changed
hands. -/
structure DmaSys.Releases (s t : DmaSys) (pg : ℕ) : Prop where
  fms : t.fms = s.fms.erase pg
  live : ∀ j, t.sys.live j = true ↔ s.sys.live j = true ∧ (s.sys.pages j).leader ≠ pg
  free : ∀ x, (∃ b ∈ t.sys.buddy.freeBlocks, Block.contains x b = true) ↔
    (∃ b ∈ s.sys.buddy.freeBlocks, Block.contains x b = true) ∨
      Block.contains x (s.sys.block pg) = true

/-- `DMA_FMS` holds the buffers of the driver, and each of them can be given back. -/
structure Buffers.Right (s : Buffers) : Prop where
  held : List.Forall₂ s.dma.sys.Covers s.dma.fms s.live
  returns : ∀ buffer ∈ s.live, ∃ pg t, s.dma.sys.Covers pg buffer ∧
    s.dma.virtioDmaDealloc buffer.1 buffer.2 = .ok (0, t) ∧ s.dma.Releases t pg

theorem pages2order_spec (h : pages ≤ 1024) :
    pages2order pages < maxOrder ∧ pages ≤ 2 ^ pages2order pages ∧
      ∀ i < pages2order pages, 2 ^ i < pages := by
  have hsome : ((List.range maxOrder).find? fun i => decide (pages ≤ order2pages i)).isSome := by
    rw [List.find?_isSome]
    exact ⟨10, by decide, by simpa [order2pages, maxOrder] using h⟩
  obtain ⟨k, hk⟩ := Option.isSome_iff_exists.mp hsome
  have hord : pages2order pages = k := by rw [pages2order, hk, Option.getD_some]
  rw [hord]
  obtain ⟨hfits, hlt, hsmall⟩ := List.find?_range_eq_some.mp hk
  have hlt : k < maxOrder := List.mem_range.mp hlt
  have hfits : pages ≤ order2pages k := of_decide_eq_true hfits
  rw [order2pages_of_lt hlt] at hfits
  refine ⟨hlt, hfits, fun i hi => ?_⟩
  have hi' := hsmall i hi
  rw [order2pages_of_lt (hi.trans hlt)] at hi'
  simpa using hi'

/-- The block has exactly the pages asked for if their number is a power of two. -/
theorem two_pow_pages2order (h : pages ≤ 1024) :
    2 ^ pages2order pages = pages ↔ ∃ k, pages = 2 ^ k := by
  obtain ⟨-, hle, hmin⟩ := pages2order_spec h
  constructor
  · intro heq
    exact ⟨_, heq.symm⟩
  · rintro ⟨k, rfl⟩
    have hk : pages2order (2 ^ k) ≤ k := by
      by_contra hlt
      exact (hmin k (Nat.not_le.mp hlt)).false
    exact le_antisymm (Nat.pow_le_pow_right (by decide) hk) hle

namespace PageSys

variable {s t : PageSys} {start N : ℕ} {i : ℕ}

theorem drop_clone (h : s.live i = true) : (s.clone i).drop i = .ok s := by
  have hpos := live_iff.mp h
  have hmore : (s.clone i).strong i = s.strong i + 1 := replaceAt_self
  have hnot : ¬(s.clone i).strong i - 1 = 0 := by omega
  rw [drop, strong_giveUp, if_neg hnot, giveUp, clone]
  simp only [replaceAt_replaceAt, replaceAt_self, Nat.add_sub_cancel]
  rw [replaceAt_eq_self rfl, replaceAt_eq_self rfl]
  rfl

/-- The block of a leader is released as a whole if its other pages have no handles. -/
theorem Sound.drop_block (h : s.Sound start N) (hl : (s.pages i).isLeader = true)
    (hone : s.handles i = 1) (hfriends : ∀ f ∈ (s.pages i).friends, s.handles f = 0) :
    ∃ buddy, s.drop i = .ok (s.withoutLeader buddy i) ∧
      (s.withoutLeader buddy i).Sound start N ∧
      (∀ j, (s.withoutLeader buddy i).live j = true ↔
        s.live j = true ∧ (s.pages j).leader ≠ i) ∧
      ∀ x, (∃ b ∈ buddy.freeBlocks, Block.contains x b = true) ↔
        (∃ b ∈ s.buddy.freeBlocks, Block.contains x b = true) ∨
          Block.contains x (s.block i) = true := by
  have hpos : 0 < s.handles i := by omega
  have hlt := h.held i hpos
  have hself := (h.isLeader_iff i hlt).mp hl
  have hstrong : s.strong i = 1 := by
    rw [h.counted i hlt, hone, ownedBy, if_neg (fun hne => hne.1 hself)]
  have hlast : ∀ f ∈ (s.pages i).friends, s.strong f = 1 := by
    intro f hf
    obtain ⟨hflt, hfl⟩ := h.members i hlt f hf
    have hne : f ≠ i := ((h.mem_friends_iff hlt hl hflt).mp hf).2
    have howned : s.ownedBy f = 1 :=
      if_pos ⟨fun heq => hne (heq ▸ hfl), hfl ▸ h.live_of_handle hpos⟩
    rw [h.counted f hflt, hfriends f hf, howned]
  obtain ⟨buddy, out, hdrop, hnodup, hmem, S, hS⟩ := h.drop_leader hpos (by omega)
  refine ⟨buddy, hdrop, h.withoutLeader hpos hl hstrong hlast hnodup hmem hS,
    h.live_withoutLeader hlt hl hstrong hlast, fun x => ?_⟩
  -- outstanding and free blocks partition the memory, before and after
  obtain ⟨out', hnodup', hmem', S', hS'⟩ := h.outstanding
  have hsame : out'.Perm (i :: out.erase i) :=
    ((List.perm_ext_iff_of_nodup hnodup' hnodup).mpr fun j => by rw [hmem, hmem']).trans
      (List.perm_cons_erase ((hmem i).mpr ⟨h.live_of_handle hpos, hl⟩))
  have hcount := (hsame.map s.block).countP_eq (Block.contains x)
  have hbefore := (hS'.sound h.fits).partition x
  have hafter := (hS.sound h.fits).partition x
  dsimp only at hbefore hafter
  rw [List.countP_append] at hbefore hafter
  rw [List.map_cons, List.countP_cons] at hcount
  have hfree : buddy.freeBlocks.countP (Block.contains x) =
      s.buddy.freeBlocks.countP (Block.contains x) +
        if Block.contains x (s.block i) = true then 1 else 0 := by omega
  rw [← List.countP_pos_iff (p := Block.contains x), ← List.countP_pos_iff (p := Block.contains x),
    hfree]
  split_ifs with hin <;> simp [hin]

/-- What is known of a buffer that the driver has: nothing but `DMA_FMS` refers to its block,
which is the smallest one with enough pages. -/
structure Lent (s : PageSys) (pg : ℕ) (buffer : ℕ × ℕ) : Prop where
  handles : s.handles pg = 1
  friends : ∀ f ∈ (s.pages pg).friends, s.handles f = 0
  leader : (s.pages pg).isLeader = true
  vaddr : (s.pages pg).vaddr = buffer.1 + phyMemOffset
  order : (s.pages pg).order = pages2order buffer.2
  bound : buffer.2 ≤ 1024

variable {pg : ℕ} {buffer : ℕ × ℕ}

theorem Lent.lt (h : s.Lent pg buffer) (hs : s.Sound start N) : pg < s.pageCnt :=
  hs.held pg (by rw [h.handles]; exact Nat.one_pos)

theorem Lent.live (h : s.Lent pg buffer) (hs : s.Sound start N) : s.live pg = true :=
  hs.live_of_handle (by rw [h.handles]; exact Nat.one_pos)

theorem Lent.covers (h : s.Lent pg buffer) (hs : s.Sound start N) : s.Covers pg buffer where
  live := h.live hs
  leader := h.leader
  vaddr := h.vaddr
  enough := by
    obtain ⟨hlt, hle, -⟩ := pages2order_spec h.bound
    rw [h.order, order2pages_of_lt hlt]
    exact hle

theorem Lent.getBlockPageCnt (h : s.Lent pg buffer) (hs : s.Sound start N) :
    s.getBlockPageCnt pg = .ok (2 ^ pages2order buffer.2) := by
  have hpos : 0 < 2 ^ pages2order buffer.2 := by positivity
  rw [PageSys.getBlockPageCnt, hs.friends pg (h.lt hs) h.leader, h.order, List.length_range',
    Checked.ensure_pos (Or.inl h.leader), Nat.sub_add_cancel hpos]
  rfl

theorem Lent.withBlock (h : s.Lent pg buffer) (hs : s.Sound start N) (buddy : BuddyAllocator)
    (vaddr order : ℕ) : (s.withBlock buddy vaddr order).Lent pg buffer := by
  have hlt := h.lt hs
  have hpages := pages_old buddy vaddr order hlt
  have hhandles : ∀ i < s.pageCnt, (s.withBlock buddy vaddr order).handles i = s.handles i :=
    fun i hi => replaceAt_of_ne hi.ne
  constructor
  · rw [hhandles pg hlt, h.handles]
  · intro f hf
    rw [hpages] at hf
    rw [hhandles f (hs.members pg hlt f hf).1, h.friends f hf]
  · rw [hpages, h.leader]
  · rw [hpages, h.vaddr]
  · rw [hpages, h.order]
  · exact h.bound

theorem Lent.withoutLeader (h : s.Lent pg buffer) (hs : s.Sound start N) (hi : i < s.pageCnt)
    (hl : (s.pages i).isLeader = true) (hne : pg ≠ i) (buddy : BuddyAllocator) :
    (s.withoutLeader buddy i).Lent pg buffer := by
  have hpages : (s.withoutLeader buddy i).pages = s.pages := pages_withoutLeader
  have hhandles : ∀ j ≠ i, (s.withoutLeader buddy i).handles j = s.handles j := by
    intro j hj
    rw [handles_withoutLeader]
    exact replaceAt_of_ne hj
  constructor
  · rw [hhandles pg hne, h.handles]
  · intro f hf
    rw [hpages] at hf
    obtain ⟨-, hleader⟩ := hs.members pg (h.lt hs) f hf
    have hfi : f ≠ i := by
      rintro rfl
      exact hne (hleader.symm.trans ((hs.isLeader_iff f hi).mp hl))
    rw [hhandles f hfi, h.friends f hf]
  · rw [hpages, h.leader]
  · rw [hpages, h.vaddr]
  · rw [hpages, h.order]
  · exact h.bound

theorem lent_withBlock (hs : s.Sound start N) (buddy : BuddyAllocator) {vaddr pages : ℕ}
    (hv : phyMemOffset ≤ vaddr) (hpages : pages ≤ 1024) :
    (s.withBlock buddy vaddr (pages2order pages)).Lent s.pageCnt (vaddr - phyMemOffset, pages) := by
  have hleader := pages_leader (s := s) buddy vaddr (pages2order pages)
  constructor
  · exact replaceAt_self
  · intro f hf
    rw [hleader, List.mem_range'_1] at hf
    have hold : (s.withBlock buddy vaddr (pages2order pages)).handles f = s.handles f :=
      replaceAt_of_ne (by omega)
    rw [hold]
    by_contra hne
    have := hs.held f (Nat.pos_of_ne_zero hne)
    omega
  · rw [hleader]
  · rw [hleader]
    exact (Nat.sub_add_cancel hv).symm
  · rw [hleader]
  · exact hpages

theorem Lent.eq_of_vaddr {pg' : ℕ} {buffer' : ℕ × ℕ} (h : s.Lent pg buffer)
    (h' : s.Lent pg' buffer') (hs : s.Sound start N)
    (hv : (s.pages pg).vaddr = (s.pages pg').vaddr) : pg = pg' := by
  by_contra hne
  have hin := hs.contains_leader (h.live hs)
  have hin' := hs.contains_leader (h'.live hs)
  rw [(hs.isLeader_iff pg (h.lt hs)).mp h.leader] at hin
  rw [(hs.isLeader_iff pg' (h'.lt hs)).mp h'.leader, ← hv] at hin'
  exact hs.disjoint (h.live hs) h.leader (h'.live hs) h'.leader hne _ ⟨hin, hin'⟩

end PageSys

theorem DmaSys.dmaFmsRemove_eq {s : DmaSys} {A B : List ℕ} {pg vaddr : ℕ}
    (hfms : s.fms = A ++ pg :: B) (hA : ∀ i ∈ A, (s.sys.pages i).vaddr ≠ vaddr)
    (hpg : (s.sys.pages pg).vaddr = vaddr) :
    s.dmaFmsRemove vaddr = .ok (pg, { s with fms := A ++ B }) := by
  have hseek : Cursor.seek
      (fun pg => if (s.sys.pages pg).vaddr = vaddr then Visit.stop else Visit.pass)
      (s.fms.length + 1) ⟨[], A ++ pg :: B⟩ = some ⟨[] ++ A, pg :: B⟩ :=
    Cursor.seek_stop (fun i hi => if_neg (hA i hi)) (if_pos hpg) (by simp [hfms])
  rw [← hfms, List.nil_append] at hseek
  rw [dmaFmsRemove, Cursor.front, hseek]
  rfl

namespace Buffers

variable {s t : Buffers} {start N : ℕ}
  {R : ℕ → ℕ × ℕ → Prop} {fms : List ℕ} {live : List (ℕ × ℕ)} {paddr pages : ℕ}
  {a : BufferAction}

/-- `DMA_FMS` holds the buffers of the driver, each in a block of its own. -/
structure Inv (start N : ℕ) (s : Buffers) : Prop where
  sound : s.dma.sys.Sound start N
  held : List.Forall₂ s.dma.sys.Lent s.dma.fms s.live
  nodup : s.dma.fms.Nodup

/-- The entry of `DMA_FMS` for a buffer, with what stands before and behind it. -/
theorem exists_entry (h : List.Forall₂ R fms live) {buffer : ℕ × ℕ} (hmem : buffer ∈ live) :
    ∃ A pg B A' B', fms = A ++ pg :: B ∧ live = A' ++ buffer :: B' ∧ buffer ∉ A' ∧
      List.Forall₂ R A A' ∧ R pg buffer ∧ List.Forall₂ R B B' := by
  induction h with
  | nil => cases hmem
  | @cons pg buffer' fms live hpg hrest ih =>
    by_cases heq : buffer = buffer'
    · subst heq
      exact ⟨[], pg, fms, [], live, rfl, rfl, List.not_mem_nil, .nil, hpg, hrest⟩
    · have hmem : buffer ∈ live := (List.mem_cons.mp hmem).resolve_left heq
      obtain ⟨A, pg', B, A', B', hfms, hlive, hnot, hA, hpg', hB⟩ := ih hmem
      exact ⟨pg :: A, pg', B, buffer' :: A', B', by rw [hfms]; rfl, by rw [hlive]; rfl,
        List.not_mem_cons_of_ne_of_not_mem heq hnot, .cons hpg hA, hpg', hB⟩

theorem exists_buffer (h : List.Forall₂ R fms live) {pg : ℕ} (hpg : pg ∈ fms) :
    ∃ buffer, R pg buffer := by
  induction h with
  | nil => cases hpg
  | cons hfirst _ ih =>
    rcases List.mem_cons.mp hpg with rfl | hpg
    · exact ⟨_, hfirst⟩
    · exact ih hpg

theorem Inv.dealloc (h : s.Inv start N) (hmem : (paddr, pages) ∈ s.live) :
    ∃ pg t, s.dma.sys.Lent pg (paddr, pages) ∧
      Inv start N ⟨t, s.live.erase (paddr, pages)⟩ ∧ s.dma.Releases t pg ∧
      s.dma.virtioDmaDealloc paddr pages =
        if 2 ^ pages2order pages = pages then .ok (0, t) else .error .assertion := by
  obtain ⟨A, pg, B, A', B', hfms, hlive, hnot, hA, hpg, hB⟩ := exists_entry h.held hmem
  have hs := h.sound
  have hnodup := h.nodup
  rw [hfms] at hnodup
  have hother : ∀ i ∈ A ++ B, i ≠ pg := by
    intro i hi heq
    subst heq
    exact (List.nodup_middle.mp hnodup).notMem hi
  have hvaddr : ∀ i ∈ A, (s.dma.sys.pages i).vaddr ≠ paddr + phyMemOffset := by
    intro i hi heq
    obtain ⟨buffer, hi'⟩ := exists_buffer h.held (hfms ▸ List.mem_append_left _ hi)
    exact hother i (List.mem_append_left _ hi)
      (hi'.eq_of_vaddr hpg hs (heq.trans hpg.vaddr.symm))
  have hfits : paddr + phyMemOffset < wordSize := by
    have hrange := (hs.range (hpg.live hs)).2
    rw [hpg.vaddr] at hrange
    exact hrange.trans hs.fits
  obtain ⟨buddy, hdrop, hsound, hlives, hfree⟩ := hs.drop_block hpg.leader hpg.handles hpg.friends
  have hkept : ∀ {fms live}, fms ⊆ A ++ B → List.Forall₂ s.dma.sys.Lent fms live →
      List.Forall₂ (s.dma.sys.withoutLeader buddy pg).Lent fms live := by
    intro fms live hsub hall
    induction hall with
    | nil => exact .nil
    | cons hfirst _ ih =>
      have hne := hother _ (hsub (List.mem_cons_self ..))
      exact .cons (hfirst.withoutLeader hs (hpg.lt hs) hpg.leader hne buddy)
        (ih fun i hi => hsub (List.mem_cons_of_mem _ hi))
  refine ⟨pg, ⟨s.dma.sys.withoutLeader buddy pg, A ++ B⟩, hpg, ⟨hsound, ?_, ?_⟩, ⟨?_, hlives, ?_⟩, ?_⟩
  · rw [hlive, List.erase_append_right _ hnot, List.erase_cons_head]
    exact List.rel_append (hkept (List.subset_append_left ..) hA)
      (hkept (List.subset_append_right ..) hB)
  · exact (List.nodup_middle.mp hnodup).of_cons
  · have hnotA : pg ∉ A := fun hin => hother pg (List.mem_append_left _ hin) rfl
    rw [hfms, List.erase_append_right _ hnotA, List.erase_cons_head]
  · intro x
    rw [PageSys.withoutLeader_eq]
    exact hfree x
  · rw [DmaSys.virtioDmaDealloc, addUsize_ok hfits, Checked.ok_bind,
      DmaSys.dmaFmsRemove_eq hfms hvaddr hpg.vaddr]
    simp only [Checked.ok_bind, hpg.getBlockPageCnt hs]
    split_ifs with hpow
    · simp only [Checked.ensure_pos hpow, Checked.ok_bind, hdrop]
      rfl
    · simp only [Checked.ensure_neg hpow, Checked.error_bind]

theorem Inv.alloc (h : s.Inv start N) (hpages : pages ≤ 1024) {t : DmaSys}
    (ht : s.dma.virtioDmaAlloc pages = .ok (paddr, t)) :
    Inv start N ⟨t, s.live ++ [(paddr, pages)]⟩ := by
  rcases h.sound.allocPages_cases (pages2order pages) with ⟨buddy, vaddr, -, heq, hsound⟩ | heq
  · have hleader := PageSys.pages_leader (s := s.dma.sys) buddy vaddr (pages2order pages)
    have hpos : 0 < 2 ^ pages2order pages := by positivity
    have hlive := PageSys.live_new (s := s.dma.sys) (i := s.dma.sys.pageCnt) buddy vaddr
      (pages2order pages) le_rfl (by omega)
    simp only [DmaSys.virtioDmaAlloc, heq, Checked.ok_bind, Checked.unwrap_some,
      DmaSys.dmaFmsInsert, PageSys.drop_clone hlive] at ht
    obtain ⟨paddr', hsub, hret⟩ := Checked.bind_eq_ok.mp ht
    have hvaddr : (((s.dma.sys.withBlock buddy vaddr (pages2order pages)).clone
        s.dma.sys.pageCnt).pages s.dma.sys.pageCnt).vaddr = vaddr := congrArg Page.vaddr hleader
    rw [hvaddr] at hsub
    obtain ⟨hle, hpaddr⟩ := subUsize_eq_ok.mp hsub
    simp only [Checked.pure_eq, Except.ok.injEq, Prod.mk.injEq] at hret
    obtain ⟨rfl, rfl⟩ := hret
    rw [hpaddr]
    refine ⟨hsound, ?_, ?_⟩
    · exact List.rel_append (h.held.imp fun _ _ hlent => hlent.withBlock h.sound buddy vaddr _)
        (.cons (PageSys.lent_withBlock h.sound buddy hle hpages) .nil)
    · have hnew : s.dma.sys.pageCnt ∉ s.dma.fms := by
        intro hin
        obtain ⟨buffer, hlent⟩ := exists_buffer h.held hin
        exact (hlent.lt h.sound).false
      exact List.nodup_append.mpr ⟨h.nodup, List.nodup_singleton _, by
        intro i hi j hj heq
        rw [List.mem_singleton.mp hj] at heq
        exact hnew (heq ▸ hi)⟩
  · simp only [DmaSys.virtioDmaAlloc, heq, Checked.ok_bind] at ht
    cases ht

theorem Inv.step (h : s.Inv start N) (hstep : Step s a t) : t.Inv start N := by
  obtain ⟨hen, hexec⟩ := hstep
  cases a with
  | alloc pages =>
    obtain ⟨⟨paddr, dma⟩, halloc, hret⟩ := Checked.bind_eq_ok.mp hexec
    cases hret
    exact h.alloc hen.2 halloc
  | dealloc paddr pages =>
    obtain ⟨⟨r, dma⟩, hfree, hret⟩ := Checked.bind_eq_ok.mp hexec
    cases hret
    obtain ⟨pg, t, -, hinv, -, heq⟩ := h.dealloc hen
    rw [heq] at hfree
    split_ifs at hfree
    cases hfree
    exact hinv

/-- The buffers can be given back exactly if their numbers of pages are powers of two. -/
theorem Inv.right_iff (h : s.Inv start N) :
    s.Right ↔ ∀ buffer ∈ s.live, ∃ k, buffer.2 = 2 ^ k := by
  have hbound : ∀ {buffer}, buffer ∈ s.live → buffer.2 ≤ 1024 := by
    intro buffer hmem
    obtain ⟨pg, t, hpg, -⟩ := h.dealloc hmem
    exact hpg.bound
  constructor
  · intro hright buffer hmem
    obtain ⟨-, u, -, hok, -⟩ := hright.returns buffer hmem
    obtain ⟨pg, t, -, -, -, heq⟩ := h.dealloc hmem
    rw [heq] at hok
    split_ifs at hok with hpow
    exact (two_pow_pages2order (hbound hmem)).mp hpow
  · intro hpow
    refine ⟨h.held.imp fun _ _ hlent => hlent.covers h.sound, fun buffer hmem => ?_⟩
    obtain ⟨pg, t, hpg, -, hrel, heq⟩ := h.dealloc hmem
    rw [if_pos ((two_pow_pages2order (hbound hmem)).mpr (hpow buffer hmem))] at heq
    exact ⟨pg, t, hpg.covers h.sound, heq, hrel⟩

/-- The action does not ask for a number of pages other than a power of two. -/
def AsksPower : BufferAction → Prop
  | .alloc pages => ∃ k, pages = 2 ^ k
  | .dealloc _ _ => True

theorem powers_iff (hstep : Step s a t) (hpow : ∀ buffer ∈ s.live, ∃ k, buffer.2 = 2 ^ k) :
    (∀ buffer ∈ t.live, ∃ k, buffer.2 = 2 ^ k) ↔ AsksPower a := by
  cases a with
  | alloc pages =>
    obtain ⟨⟨paddr, dma⟩, -, hret⟩ := Checked.bind_eq_ok.mp hstep.2
    cases hret
    constructor
    · intro hall
      exact hall (paddr, pages) (List.mem_append_right _ (List.mem_singleton_self _))
    · intro hpages buffer hmem
      rcases List.mem_append.mp hmem with hmem | hmem
      · exact hpow buffer hmem
      · rw [List.mem_singleton.mp hmem]
        exact hpages
  | dealloc paddr pages =>
    obtain ⟨⟨r, dma⟩, -, hret⟩ := Checked.bind_eq_ok.mp hstep.2
    cases hret
    exact iff_of_true (fun buffer hmem => hpow buffer (List.mem_of_mem_erase hmem)) trivial

def empty (sys : PageSys) : Buffers := ⟨⟨sys, []⟩, []⟩

theorem inv_empty {sys : PageSys} (hs : sys.Sound start N) : (empty sys).Inv start N :=
  ⟨hs, .nil, List.nodup_nil⟩

/-- From a sound state of the pages, in every state of a run `DMA_FMS` holds exactly the
buffers of the driver and each of them can be given back, if and only if the driver only
ever asks for a power of two of pages. -/
theorem right_iff_asksPower {sys : PageSys} (hs : sys.Sound start N)
    {r : List (BufferAction × Buffers)} (hrun : Trace.IsRun Step (empty sys) r) :
    (∀ t ∈ Trace.states (empty sys) r, t.Right) ↔
      ∀ x ∈ Trace.steps (empty sys) r, AsksPower x.2 := by
  have hstart := inv_empty hs
  refine Trace.all_states_iff_all_steps
    (fun s => s.Inv start N ∧ ∀ buffer ∈ s.live, ∃ k, buffer.2 = 2 ^ k) Right
    (fun _ a => AsksPower a) ?_ ?_ ⟨hstart, fun _ hmem => absurd hmem List.not_mem_nil⟩
    (hstart.right_iff.mpr fun _ hmem => absurd hmem List.not_mem_nil) hrun
  · intro s a t ⟨hinv, hpow⟩ ha hstep
    exact ⟨hinv.step hstep, (powers_iff hstep hpow).mpr ha⟩
  · intro s a t ⟨hinv, hpow⟩ hstep
    rw [(hinv.step hstep).right_iff, powers_iff hstep hpow]

def next (s : Buffers) (a : BufferAction) : Buffers :=
  match s.exec a with
  | .ok s' => s'
  | .error _ => s

theorem isRun_record_next {acts : List BufferAction}
    (h : ∀ x ∈ Trace.steps s (Trace.record next s acts), x.1.Enabled x.2 ∧ (x.1.exec x.2).isOk) :
    Trace.IsRun Step s (Trace.record next s acts) := by
  refine Trace.isRun_record fun x hx => ?_
  obtain ⟨t, ht⟩ := Checked.exists_of_isOk (h x hx).2
  exact ⟨(h x hx).1, by rw [next, ht]⟩

def eightPages : PageSys :=
  (PageSys.init 0xFFFFFFD880000000 0xFFFFFFD880008000).toOption.get (by decide +kernel)

theorem init_eightPages : PageSys.init 0xFFFFFFD880000000 0xFFFFFFD880008000 = .ok eightPages :=
  Checked.eq_ok_of_toOption (Option.some_get _).symm

theorem sound_eightPages : eightPages.Sound 0xFFFFFFD880000000 8 := by
  have hs : Vaddr.ceil 0xFFFFFFD880000000 = .ok 0xFFFFFFD880000000 := by decide +kernel
  have he : Vaddr.floor 0xFFFFFFD880008000 = .ok 0xFFFFFFD880008000 := by decide +kernel
  exact PageSys.Sound.init hs he (by decide) init_eightPages

/-- A buffer of two pages and one of three pages, of which the first is given back. -/
def twoBuffers : List BufferAction := [.alloc 2, .alloc 3, .dealloc 0x80000000 2]

theorem twoBuffers_isRun : Trace.IsRun Step (empty eightPages)
    (Trace.record next (empty eightPages) twoBuffers) := by
  apply isRun_record_next
  decide +kernel

theorem right_iff_asksPower_twoBuffers :
    (∀ t ∈ Trace.states (empty eightPages)
        (Trace.record next (empty eightPages) twoBuffers), t.Right) ↔
      ∀ x ∈ Trace.steps (empty eightPages)
        (Trace.record next (empty eightPages) twoBuffers), AsksPower x.2 :=
  right_iff_asksPower sound_eightPages twoBuffers_isRun

/-- A buffer of three pages is a block of four, and the driver cannot give it back. -/
theorem three_pages_not_returned :
    ∃ r, Trace.IsRun Step (empty eightPages) r ∧
      (Trace.final (empty eightPages) r).live = [(0x80000000, 3)] ∧
      (Trace.final (empty eightPages) r).dma.virtioDmaDealloc 0x80000000 3 = .error .assertion ∧
      ¬(Trace.final (empty eightPages) r).Right := by
  have hrun : Trace.IsRun Step (empty eightPages)
      (Trace.record next (empty eightPages) [.alloc 3]) := by
    apply isRun_record_next
    decide +kernel
  have hlive : (Trace.final (empty eightPages)
      (Trace.record next (empty eightPages) [.alloc 3])).live = [(0x80000000, 3)] := by
    decide +kernel
  have hinv := Trace.invariant (Inv 0xFFFFFFD880000000 8) (fun _ _ _ h hstep => h.step hstep)
    (inv_empty sound_eightPages) hrun _ (Trace.final_mem_states ..)
  have hmem : (0x80000000, 3) ∈ (Trace.final (empty eightPages)
      (Trace.record next (empty eightPages) [.alloc 3])).live := by
    rw [hlive]
    exact List.mem_singleton_self _
  have hnot : ¬2 ^ pages2order 3 = 3 := by decide
  refine ⟨_, hrun, hlive, ?_, fun hright => ?_⟩
  · obtain ⟨pg, t, -, -, -, heq⟩ := hinv.dealloc hmem
    rwa [if_neg hnot] at heq
  · exact hnot ((two_pow_pages2order (by decide)).mpr (hinv.right_iff.mp hright _ hmem))

end Buffers

end Zinix
