import Zinix.Mm.BuddyInit

/-!
# Runs of the allocator

A run starts after initialisation and calls `allocArea` with any order and `freeArea` on
any block that is outstanding.
-/

namespace Zinix

open DyadicBlocks Function

/-- A block as its caller sees it: the address and the order it was asked for. -/
abbrev Block := ℕ × ℕ

namespace Block

def pages (b : Block) : ℕ := order2pages b.2

def contains (x : ℕ) (b : Block) : Bool := decide (b.1 ≤ x ∧ x < b.1 + b.pages * pageSize)

theorem contains_blockAddr {start i k x : ℕ} (hi : i < maxOrder) (hx : start ≤ x) :
    contains x (blockAddr start i k, i) = decide ((x - start) / pageSize / 2 ^ i = k) := by
  have hpos : 0 < pageSize * 2 ^ i := Nat.mul_pos pageSize_pos (by positivity)
  unfold contains pages
  rw [Nat.div_div_eq_div_mul, decide_eq_decide, order2pages_of_lt hi, ← blockAddr_succ,
    Nat.div_eq_iff hpos]
  have haddr : ∀ m, blockAddr start i m = start + m * (pageSize * 2 ^ i) := by
    intro m
    unfold blockAddr
    ring
  rw [haddr, haddr, Nat.add_mul, Nat.one_mul]
  omega

end Block

namespace BuddyAllocator

def freeBlocksAt (a : BuddyAllocator) (i : ℕ) : List Block :=
  match a.freeAreas[i]? with
  | some fa => fa.list.map (·, i)
  | none => []

def freeBlocks (a : BuddyAllocator) : List Block := (List.range maxOrder).flatMap a.freeBlocksAt

theorem freeBlocksAt_eq {a : BuddyAllocator} {i : ℕ} {fa : FreeArea} (h : a.area i = .ok fa) :
    a.freeBlocksAt i = fa.list.map (·, i) := by
  unfold area at h
  unfold freeBlocksAt
  cases hget : a.freeAreas[i]? with
  | none => simp [hget] at h
  | some fb =>
    simp only [hget, Except.ok.injEq] at h
    simp only [h]

end BuddyAllocator

/-- An allocator together with the blocks handed out and not yet freed. -/
structure BuddyState where
  allocator : BuddyAllocator
  outstanding : List Block

/-- One call of a client that frees only outstanding blocks. -/
inductive BuddyStep : BuddyState → BuddyState → Prop
  | alloc {a a' : BuddyAllocator} {out : List Block} {order vaddr : ℕ} :
      a.allocArea order = .ok (some vaddr, a') → BuddyStep ⟨a, out⟩ ⟨a', (vaddr, order) :: out⟩
  | allocErr {a a' : BuddyAllocator} {out : List Block} {order : ℕ} :
      a.allocArea order = .ok (none, a') → BuddyStep ⟨a, out⟩ ⟨a', out⟩
  | free {a a' : BuddyAllocator} {out : List Block} {b : Block} {ok : Bool} :
      b ∈ out → a.freeArea b.1 b.2 = .ok (ok, a') → BuddyStep ⟨a, out⟩ ⟨a', out.erase b⟩

/-- The state `s` is reached by some run from the allocator `a₀`. -/
def BuddyReaches (a₀ : BuddyAllocator) (s : BuddyState) : Prop :=
  Relation.ReflTransGen BuddyStep ⟨a₀, []⟩ s

/-- The areas hold the family `S`, and `S` and the outstanding blocks partition
the first `N` pages. -/
structure RunInv (start N : ℕ) (s : BuddyState) (S : Family) : Prop where
  alloc : AllocInv start N s.allocator S
  noSiblings : NoSiblings maxOrder S
  outstanding : ∀ b ∈ s.outstanding, b.2 < maxOrder ∧
    ∃ k, b.1 = blockAddr start b.2 k ∧ (k + 1) * 2 ^ b.2 ≤ N
  covered : ∀ x, start ≤ x → cover maxOrder S ((x - start) / pageSize) +
    s.outstanding.countP (Block.contains x) = if (x - start) / pageSize < N then 1 else 0
  weighed : weight maxOrder S + (s.outstanding.map Block.pages).sum = N

namespace RunInv

variable {start N : ℕ} {s s' : BuddyState} {S : Family}
  {i k o x : ℕ} {a' : BuddyAllocator} {b : Block}

theorem init {a : BuddyAllocator} (h : AllocInv start N a (greedy maxOrder N)) :
    RunInv start N ⟨a, []⟩ (greedy maxOrder N) where
  alloc := h
  noSiblings := greedy_noSiblings maxOrder N
  outstanding := by simp
  covered := by
    intro x _
    simp only [List.countP_nil, Nat.add_zero]
    exact cover_greedy 10 N ((x - start) / pageSize)
  weighed := by
    simp only [List.map_nil, List.sum_nil, Nat.add_zero]
    exact weight_greedy 10 N

theorem covered_page (h : RunInv start N s S) (q : ℕ) :
    cover maxOrder S q + s.outstanding.countP (Block.contains (start + q * pageSize)) =
      if q < N then 1 else 0 := by
  have hx := h.covered (start + q * pageSize) (by omega)
  rwa [Nat.add_sub_cancel_left, Nat.mul_div_cancel q pageSize_pos] at hx

theorem separate (h : RunInv start N s S) : Separate maxOrder S := by
  intro q
  have hq := h.covered_page q
  split_ifs at hq <;> omega

theorem uncovered (h : RunInv start N s S) (hi : i < maxOrder)
    (hmem : (blockAddr start i k, i) ∈ s.outstanding) (q : ℕ) (hq : q / 2 ^ i = k) :
    cover maxOrder S q = 0 := by
  have hcov := h.covered_page q
  have hin : Block.contains (start + q * pageSize) (blockAddr start i k, i) = true := by
    rw [Block.contains_blockAddr hi (by omega), Nat.add_sub_cancel_left,
      Nat.mul_div_cancel q pageSize_pos, hq]
    simp
  have hpos : 0 < s.outstanding.countP (Block.contains (start + q * pageSize)) :=
    List.countP_pos_iff.mpr ⟨_, hmem, hin⟩
  split_ifs at hcov <;> omega

theorem split (h : RunInv start N s S) {T : Family} (hsplit : Splits maxOrder S o k T)
    (ha' : AllocInv start N a' T) :
    RunInv start N ⟨a', (blockAddr start o k, o) :: s.outstanding⟩ T where
  alloc := ha'
  noSiblings := hsplit.noSiblings h.noSiblings
  outstanding := by
    intro b hb
    rcases List.mem_cons.mp hb with rfl | hb
    · exact ⟨hsplit.order_lt, k, rfl, hsplit.bounded h.alloc.inside⟩
    · exact h.outstanding b hb
  covered := by
    intro x hx
    have hcov := h.covered x hx
    rw [hsplit.cover_eq] at hcov
    rw [List.countP_cons, Block.contains_blockAddr hsplit.order_lt hx]
    simp only [decide_eq_true_eq]
    omega
  weighed := by
    have hw := h.weighed
    rw [hsplit.weight_eq] at hw
    rw [List.map_cons, List.sum_cons, Block.pages, order2pages_of_lt hsplit.order_lt]
    omega

theorem coalesce (h : RunInv start N s S) (ho : o < maxOrder)
    (hmem : (blockAddr start o k, o) ∈ s.outstanding)
    (ha' : AllocInv start N a' (coalesce maxOrder S o k)) :
    RunInv start N ⟨a', s.outstanding.erase (blockAddr start o k, o)⟩
      (DyadicBlocks.coalesce maxOrder S o k) where
  alloc := ha'
  noSiblings := noSiblings_coalesce h.noSiblings
  outstanding := fun b hb => h.outstanding b (List.mem_of_mem_erase hb)
  covered := by
    intro x hx
    have hcov := h.covered x hx
    have hperm := (List.perm_cons_erase hmem).countP_eq (Block.contains x)
    rw [List.countP_cons, Block.contains_blockAddr ho hx] at hperm
    rw [cover_coalesce ho h.separate (h.uncovered ho hmem)]
    simp only [decide_eq_true_eq] at hperm
    change _ + (s.outstanding.erase _).countP _ = _
    omega
  weighed := by
    have hw := h.weighed
    have hperm := ((List.perm_cons_erase hmem).map Block.pages).sum_eq
    rw [List.map_cons, List.sum_cons, Block.pages, order2pages_of_lt ho] at hperm
    rw [weight_coalesce ho h.separate (h.uncovered ho hmem)]
    change _ + ((s.outstanding.erase _).map _).sum = _
    omega

theorem free_ok (h : RunInv start N s S) (hfit : start + N * pageSize < wordSize)
    (hb : b ∈ s.outstanding) :
    ∃ a' T, s.allocator.freeArea b.1 b.2 = .ok (true, a') ∧
      RunInv start N ⟨a', s.outstanding.erase b⟩ T := by
  obtain ⟨v, o⟩ := b
  obtain ⟨ho, k, hv, hin⟩ := h.outstanding _ hb
  simp only at ho hv hin
  subst hv
  obtain ⟨a', hfree, ha'⟩ := h.alloc.freeArea_eq hfit h.separate ho hin (h.uncovered ho hb)
  exact ⟨a', _, hfree, h.coalesce ho hb ha'⟩

theorem step (h : RunInv start N s S) (hfit : start + N * pageSize < wordSize)
    (hstep : BuddyStep s s') : ∃ T, RunInv start N s' T := by
  cases hstep with
  | @alloc a a' out order vaddr halloc =>
    rcases h.alloc.allocArea_cases hfit order with ⟨k, a₁, T, heq, hsplit, ha₁⟩ | ⟨heq, _⟩
    · rw [heq] at halloc
      cases halloc
      exact ⟨T, h.split hsplit ha₁⟩
    · rw [heq] at halloc
      cases halloc
  | @allocErr a a' out order halloc =>
    rcases h.alloc.allocArea_cases hfit order with ⟨k, a₁, T, heq, hsplit, ha₁⟩ | ⟨heq, _⟩
    · rw [heq] at halloc
      cases halloc
    · rw [heq] at halloc
      cases halloc
      exact ⟨S, h⟩
  | @free a a' out b ok hb hfree =>
    obtain ⟨a₁, T, heq, hT⟩ := h.free_ok hfit hb
    rw [heq] at hfree
    cases hfree
    exact ⟨T, hT⟩

theorem reaches {a₀ : BuddyAllocator} (h : AllocInv start N a₀ (greedy maxOrder N))
    (hfit : start + N * pageSize < wordSize) (hs : BuddyReaches a₀ s) :
    ∃ T, RunInv start N s T := by
  induction hs with
  | refl => exact ⟨_, init h⟩
  | tail _ hstep ih =>
    obtain ⟨T, hT⟩ := ih
    exact hT.step hfit hstep

theorem countP_freeBlocksAt (h : RunInv start N s S) (hi : i < maxOrder) (hx : start ≤ x) :
    (s.allocator.freeBlocksAt i).countP (Block.contains x) =
      if (x - start) / pageSize / 2 ^ i ∈ S i then 1 else 0 := by
  obtain ⟨fa, hget, hfa⟩ := h.alloc.area i hi
  set k := (x - start) / pageSize / 2 ^ i with hk
  have hcount : fa.list.countP (fun v => Block.contains x (v, i)) =
      fa.list.count (blockAddr start i k) := by
    rw [List.count_eq_countP]
    apply List.countP_congr
    intro v hv
    obtain ⟨m, _, rfl⟩ := (hfa.mem_list v).mp hv
    rw [Block.contains_blockAddr hi hx, ← hk, decide_eq_true_eq, beq_iff_eq,
      (blockAddr_injective start i).eq_iff]
    exact eq_comm
  rw [BuddyAllocator.freeBlocksAt_eq hget, List.countP_map]
  change fa.list.countP (fun v => Block.contains x (v, i)) = _
  rw [hcount]
  split_ifs with hmem
  · exact List.count_eq_one_of_mem hfa.nodup ((hfa.mem_iff k).mpr hmem)
  · exact List.count_eq_zero_of_not_mem (fun hin => hmem ((hfa.mem_iff k).mp hin))

theorem countP_freeBlocks (h : RunInv start N s S) (hx : start ≤ x) :
    s.allocator.freeBlocks.countP (Block.contains x) =
      cover maxOrder S ((x - start) / pageSize) := by
  have hprefix : ∀ n ≤ maxOrder,
      ((List.range n).flatMap s.allocator.freeBlocksAt).countP (Block.contains x) =
        cover n S ((x - start) / pageSize) := by
    intro n hn
    induction n with
    | zero => rfl
    | succ n ih =>
      rw [List.range_succ, List.flatMap_append, List.countP_append, ih (by omega),
        List.flatMap_singleton, h.countP_freeBlocksAt (by omega) hx]
      unfold cover
      rw [Finset.sum_range_succ]
  exact hprefix maxOrder le_rfl

theorem mem_freeBlocks (h : RunInv start N s S) (b : Block) :
    b ∈ s.allocator.freeBlocks ↔ b.2 < maxOrder ∧ ∃ k ∈ S b.2, b.1 = blockAddr start b.2 k := by
  unfold BuddyAllocator.freeBlocks
  rw [List.mem_flatMap]
  constructor
  · rintro ⟨i, hi, hb⟩
    rw [List.mem_range] at hi
    obtain ⟨fa, hget, hfa⟩ := h.alloc.area i hi
    rw [BuddyAllocator.freeBlocksAt_eq hget, List.mem_map] at hb
    obtain ⟨v, hv, rfl⟩ := hb
    exact ⟨hi, (hfa.mem_list v).mp hv⟩
  · rintro ⟨hi, hk⟩
    obtain ⟨fa, hget, hfa⟩ := h.alloc.area b.2 hi
    refine ⟨b.2, List.mem_range.mpr hi, ?_⟩
    rw [BuddyAllocator.freeBlocksAt_eq hget, List.mem_map]
    exact ⟨b.1, (hfa.mem_list b.1).mpr hk, rfl⟩

/-- Every block, free or outstanding, starts at a block address inside the range. -/
theorem block_addr (h : RunInv start N s S) (hb : b ∈ s.outstanding ++ s.allocator.freeBlocks) :
    b.2 < maxOrder ∧ ∃ k, b.1 = blockAddr start b.2 k := by
  rcases List.mem_append.mp hb with hb | hb
  · obtain ⟨ho, k, hk, _⟩ := h.outstanding b hb
    exact ⟨ho, k, hk⟩
  · obtain ⟨ho, k, _, hk⟩ := (h.mem_freeBlocks b).mp hb
    exact ⟨ho, k, hk⟩

theorem countP_below (h : RunInv start N s S) (hx : x < start) :
    (s.outstanding ++ s.allocator.freeBlocks).countP (Block.contains x) = 0 := by
  rw [List.countP_eq_zero]
  intro b hb hcon
  obtain ⟨_, k, hk⟩ := h.block_addr hb
  simp only [Block.contains, decide_eq_true_eq, hk, blockAddr] at hcon
  omega

end RunInv

/-- What holds of a state in which every block of the range `[ns, ne)` is
accounted for. -/
structure BuddySound (ns ne : ℕ) (s : BuddyState) : Prop where
  partition : ∀ x, (s.outstanding ++ s.allocator.freeBlocks).countP (Block.contains x) =
    if ns ≤ x ∧ x < ne then 1 else 0
  aligned : ∀ b ∈ s.outstanding ++ s.allocator.freeBlocks,
    s.allocator.startVaddr = ns ∧ ns ≤ b.1 ∧ (b.1 - ns) % (2 ^ b.2 * pageSize) = 0
  counters : ∀ i < maxOrder, ∃ fa, s.allocator.area i = .ok fa ∧ fa.freeCnt = fa.list.length
  freePages : ∃ n, s.allocator.getFreePagesCnt = .ok n ∧
    n + (s.outstanding.map Block.pages).sum = (ne - ns) / pageSize
  alloc_returns : ∀ order, ∃ r, s.allocator.allocArea order = .ok r
  free_returns : ∀ b ∈ s.outstanding, ∃ a', s.allocator.freeArea b.1 b.2 = .ok (true, a')

theorem RunInv.sound {start N : ℕ} {s : BuddyState} {S : Family} (h : RunInv start N s S)
    (hfit : start + N * pageSize < wordSize) : BuddySound start (start + N * pageSize) s where
  partition := by
    intro x
    by_cases hx : start ≤ x
    · have hcov := h.covered x hx
      rw [List.countP_append, h.countP_freeBlocks hx, Nat.add_comm, hcov]
      have hdiv : (x - start) / pageSize < N ↔ x < start + N * pageSize := by
        rw [Nat.div_lt_iff_lt_mul pageSize_pos]
        omega
      simp [hdiv, hx]
    · rw [h.countP_below (by omega), if_neg (by omega)]
  aligned := by
    intro b hb
    obtain ⟨_, k, hk⟩ := h.block_addr hb
    refine ⟨h.alloc.startVaddr_eq, by rw [hk, blockAddr]; omega, ?_⟩
    rw [hk, blockAddr, Nat.add_sub_cancel_left, Nat.mul_assoc]
    exact Nat.mul_mod_left _ _
  counters := by
    intro i hi
    obtain ⟨fa, hget, hfa⟩ := h.alloc.area i hi
    exact ⟨fa, hget, hfa.freeCnt_eq⟩
  freePages := by
    have hw := h.weighed
    have hle : weight maxOrder S < wordSize := by
      simp only [pageSize] at hfit
      omega
    refine ⟨_, h.alloc.getFreePagesCnt_eq hle, ?_⟩
    rw [hw, Nat.add_sub_cancel_left, Nat.mul_div_cancel N pageSize_pos]
  alloc_returns := by
    intro order
    rcases h.alloc.allocArea_cases hfit order with ⟨k, a', T, heq, _, _⟩ | ⟨heq, _⟩
    · exact ⟨_, heq⟩
    · exact ⟨_, heq⟩
  free_returns := by
    intro b hb
    obtain ⟨a', T, heq, _⟩ := h.free_ok hfit hb
    exact ⟨a', heq⟩

/-- Initialisation returns and every reachable state is sound. -/
def SoundRuns (sVaddr eVaddr ns ne : ℕ) : Prop :=
  ∃ a₀, BuddyAllocator.new sVaddr eVaddr = .ok a₀ ∧ ∀ s, BuddyReaches a₀ s → BuddySound ns ne s

/-- The allocator is sound on a range exactly when the range is a whole number
of largest blocks, or one more such block past the range still has its end
inside the address space. -/
theorem soundRuns_iff {sVaddr eVaddr ns ne : ℕ} (hs : Vaddr.ceil sVaddr = .ok ns)
    (he : Vaddr.floor eVaddr = .ok ne) (hle : ns ≤ ne) :
    SoundRuns sVaddr eVaddr ns ne ↔
      (ne - ns) / pageSize % 1024 = 0 ∨
        ns + ((ne - ns) / pageSize / 1024 + 1) * 1024 * pageSize < 2 ^ 64 := by
  obtain ⟨N, rfl, hlt, hok, hover⟩ := BuddyAllocator.new_ok hs he hle
  rw [Nat.add_sub_cancel_left, Nat.mul_div_cancel N pageSize_pos]
  change _ ↔ WalkFits ns N (maxOrder - 1)
  constructor
  · rintro ⟨a₀, hnew, _⟩
    by_contra hwalk
    rw [hover hwalk] at hnew
    cases hnew
  · intro hwalk
    obtain ⟨a₀, hnew, ha₀⟩ := hok hwalk
    refine ⟨a₀, hnew, fun s hreach => ?_⟩
    obtain ⟨S, hS⟩ := RunInv.reaches ha₀ hlt hreach
    exact hS.sound hlt

/-- Two pages at the bottom of the address space. -/
theorem soundRuns_two_pages : SoundRuns 1 12288 4096 12288 :=
  (soundRuns_iff (by decide) (by decide) (by decide)).mpr (by decide)

/-- One page below the last two pages of the address space: the iterator of the
largest order steps past the end and initialisation panics. -/
theorem not_soundRuns_top :
    Vaddr.ceil (2 ^ 64 - 12288) = .ok (2 ^ 64 - 12288) ∧
      Vaddr.floor (2 ^ 64 - 8192) = .ok (2 ^ 64 - 8192) ∧
        ¬SoundRuns (2 ^ 64 - 12288) (2 ^ 64 - 8192) (2 ^ 64 - 12288) (2 ^ 64 - 8192) := by
  have hs : Vaddr.ceil (2 ^ 64 - 12288) = .ok (2 ^ 64 - 12288) := by decide
  have he : Vaddr.floor (2 ^ 64 - 8192) = .ok (2 ^ 64 - 8192) := by decide
  refine ⟨hs, he, ?_⟩
  rintro ⟨a₀, hnew, _⟩
  obtain ⟨N, hN, _, _, hover⟩ := BuddyAllocator.new_ok hs he (by decide)
  have hone : N = 1 := by
    simp only [pageSize] at hN
    omega
  subst hone
  rw [hover (by decide)] at hnew
  cases hnew

end Zinix
