import Zinix.Fs.Descriptors
import Zinix.Lib.Trace

/-!
# Counting the writers of a pipe

A pipe counts the open files that can write to it in a byte, so it has their number modulo
256 at all times.
-/

namespace Zinix

namespace Descriptors

variable (s : Descriptors)

/-- What is done to the pipe of an open file if the file can write to one. -/
def atWritten (change : Pipe → Pipe) (d : ℕ) : Descriptors :=
  match (s.dfiles d).cls with
  | .classPipe p =>
    if (s.dfiles d).openFlags.writeable then
      { s with pipes := replaceAt s.pipes p (change (s.pipes p)) }
    else
      s
  | _ => s

theorem dropDFile_eq (d : ℕ) : s.dropDFile d = s.atWritten Pipe.decWrite d := rfl

/-- `DFile::deep_clone`, which makes another open file. -/
def deepClone (d : ℕ) : ℕ × Descriptors :=
  (s.atWritten Pipe.incWrite d).newDFile
    ⟨(s.dfiles d).cls, (s.dfiles d).openFlags, (s.dfiles d).cloexec⟩

def sleepRead (p t : ℕ) : Descriptors :=
  { s with pipes := replaceAt s.pipes p ((s.pipes p).sleepWaitRead t) }

/-- The open files that have not been dropped and can write to the pipe. -/
def writers (p : ℕ) : Finset ℕ :=
  (Finset.range s.dfileCnt).filter fun d => s.IsWriter d p ∧ 0 < s.strong d

end Descriptors

inductive HandleOp where
  | newPipe
  | deepClone (d : ℕ)
  | drop (d : ℕ)
  | sleepRead (p t : ℕ)

/-- Only a handle that has not been dropped can be cloned or dropped. -/
inductive HandleStep (s : Descriptors) : HandleOp → Descriptors → Prop where
  | newPipe : HandleStep s .newPipe s.newPipe.2
  | deepClone {d : ℕ} (hd : d < s.dfileCnt) (hlive : 0 < s.strong d) :
      HandleStep s (.deepClone d) (s.deepClone d).2
  | drop {d : ℕ} (hd : d < s.dfileCnt) (hlive : 0 < s.strong d) :
      HandleStep s (.drop d) (s.dropArc d)
  | sleepRead {p t : ℕ} (hp : p < s.pipeCnt) : HandleStep s (.sleepRead p t) (s.sleepRead p t)

namespace Descriptors

variable {s s' : Descriptors} {d p : ℕ}
  {f : DFile} {e n n' : ℕ} {op : HandleOp} {q q' : Pipe}

/-- The count of a pipe is right, `haveWriter` answers whether a writer is left, and waiting
readers are woken by the step with which the last one goes, and by no other. -/
structure CountExact (s : Descriptors) (p : ℕ) : Prop where
  writeCnt : (s.pipes p).writeCnt.toNat = (s.writers p).card
  haveWriter : (s.pipes p).haveWriter = false ↔ s.writers p = ∅
  wakes : ∀ op s', HandleStep s op s' → (s.pipes p).waitRead ≠ [] →
    ((s'.pipes p).waitRead = [] ↔ s.writers p ≠ ∅ ∧ s'.writers p = ∅)

/-- Every handle has one owner at most, and refers to a pipe that exists. -/
structure Handles (s : Descriptors) : Prop where
  strong_le : ∀ d, s.strong d ≤ 1
  owner : ∀ d p, d < s.dfileCnt → (s.dfiles d).cls = .classPipe p → p < s.pipeCnt

structure HandlesCounted (s : Descriptors) : Prop extends Handles s where
  writeCnt : ∀ p < s.pipeCnt, (s.pipes p).writeCnt = UInt8.ofNat (s.writers p).card

/-! ### The writers after a step -/

theorem mem_writers : d ∈ s.writers p ↔ s.IsWriter d p ∧ 0 < s.strong d := by
  rw [writers, Finset.mem_filter, Finset.mem_range, and_iff_right_iff_imp]
  exact fun h => h.1.old

theorem isWriter_congr (hdfiles : s'.dfiles = s.dfiles) (hcnt : s'.dfileCnt = s.dfileCnt) :
    s'.IsWriter d p ↔ s.IsWriter d p := by
  constructor
  · rintro ⟨hold, hcls, hflags⟩
    exact ⟨hcnt ▸ hold, hdfiles ▸ hcls, hdfiles ▸ hflags⟩
  · rintro ⟨hold, hcls, hflags⟩
    exact ⟨hcnt ▸ hold, hdfiles ▸ hcls, hdfiles ▸ hflags⟩

theorem writers_congr (hdfiles : s'.dfiles = s.dfiles) (hcnt : s'.dfileCnt = s.dfileCnt)
    (hstrong : s'.strong = s.strong) : s'.writers p = s.writers p := by
  ext d
  rw [mem_writers, mem_writers, isWriter_congr hdfiles hcnt, hstrong]

theorem exists_atWritten_eq (change : Pipe → Pipe) (d : ℕ) :
    ∃ pipes, s.atWritten change d = { s with pipes := pipes } := by
  unfold atWritten
  split
  · split_ifs
    · exact ⟨_, rfl⟩
    · exact ⟨s.pipes, rfl⟩
  · exact ⟨s.pipes, rfl⟩

theorem writers_atWritten (change : Pipe → Pipe) (d : ℕ) :
    (s.atWritten change d).writers p = s.writers p := by
  obtain ⟨pipes, heq⟩ := s.exists_atWritten_eq change d
  rw [heq]
  exact writers_congr rfl rfl rfl

theorem pipes_atWritten (change : Pipe → Pipe) (hd : d < s.dfileCnt) (p : ℕ) :
    (s.atWritten change d).pipes p =
      if s.IsWriter d p then change (s.pipes p) else s.pipes p := by
  unfold atWritten
  cases hcls : (s.dfiles d).cls with
  | classInode i =>
    rw [if_neg fun hw => by rw [hw.cls] at hcls; cases hcls]
  | classTerminal ttype =>
    rw [if_neg fun hw => by rw [hw.cls] at hcls; cases hcls]
  | classPipe q =>
    simp only
    by_cases hflags : (s.dfiles d).openFlags.writeable = true
    · rw [if_pos hflags]
      by_cases hpq : p = q
      · subst hpq
        rw [if_pos ⟨hd, hcls, hflags⟩]
        exact replaceAt_self
      · rw [if_neg fun hw => hpq (DFileClass.classPipe.inj (hw.cls.symm.trans hcls))]
        exact replaceAt_of_ne hpq
    · rw [if_neg hflags, if_neg fun hw => hflags hw.writeable]

theorem dropArc_of_strong_one (hlive : s.strong d = 1) :
    s.dropArc d =
      ({ s with strong := replaceAt s.strong d 0 } : Descriptors).atWritten Pipe.decWrite d := by
  rw [dropArc]
  simp [hlive, dropDFile_eq]

theorem writers_dropArc (hlive : s.strong d = 1) :
    (s.dropArc d).writers p = (s.writers p).erase d := by
  rw [dropArc_of_strong_one hlive, writers_atWritten]
  ext e
  have hsame : ({ s with strong := replaceAt s.strong d 0 } : Descriptors).IsWriter e p ↔
      s.IsWriter e p := isWriter_congr rfl rfl
  rw [Finset.mem_erase, mem_writers, mem_writers, hsame]
  by_cases he : e = d
  · simp [he]
  · simp [he, replaceAt_of_ne he]

theorem pipes_dropArc (hlive : s.strong d = 1) (hd : d < s.dfileCnt) (p : ℕ) :
    (s.dropArc d).pipes p = if s.IsWriter d p then (s.pipes p).decWrite else s.pipes p := by
  rw [dropArc_of_strong_one hlive]
  refine (pipes_atWritten Pipe.decWrite ?_ p).trans (if_congr (isWriter_congr rfl rfl) rfl rfl)
  exact hd

theorem mem_writers_newDFile :
    e ∈ (s.newDFile f).2.writers p ↔ e ∈ s.writers p ∧ e ≠ s.dfileCnt ∨
      e = s.dfileCnt ∧ f.cls = .classPipe p ∧ f.openFlags.writeable = true := by
  rw [mem_writers, mem_writers]
  by_cases he : e = s.dfileCnt
  · subst he
    have hnew : (s.newDFile f).2.dfiles s.dfileCnt = f := replaceAt_self
    have hone : (s.newDFile f).2.strong s.dfileCnt = 1 := replaceAt_self
    have hlt : s.dfileCnt < (s.newDFile f).2.dfileCnt := Nat.lt_succ_self _
    constructor
    · rintro ⟨⟨-, hcls, hflags⟩, -⟩
      rw [hnew] at hcls hflags
      exact .inr ⟨rfl, hcls, hflags⟩
    · rintro (h | ⟨-, hcls, hflags⟩)
      · exact absurd rfl h.2
      · exact ⟨⟨hlt, by rw [hnew, hcls], by rw [hnew, hflags]⟩, by omega⟩
  · have hsame : (s.newDFile f).2.strong e = s.strong e := replaceAt_of_ne he
    rw [isWriter_newDFile he, hsame]
    simp [he]

theorem notMem_writers_dfileCnt : s.dfileCnt ∉ s.writers p :=
  fun h => lt_irrefl _ (mem_writers.mp h).1.old

theorem card_newDFile_of_writes (hcls : f.cls = .classPipe p)
    (hflags : f.openFlags.writeable = true) :
    ((s.newDFile f).2.writers p).card = (s.writers p).card + 1 := by
  rw [← Finset.card_insert_of_notMem (notMem_writers_dfileCnt (s := s))]
  congr 1
  ext e
  rw [mem_writers_newDFile, Finset.mem_insert]
  by_cases he : e = s.dfileCnt
  · simp [he, hcls, hflags]
  · simp [he]

theorem writers_newDFile_of_not (h : ¬(f.cls = .classPipe p ∧ f.openFlags.writeable = true)) :
    (s.newDFile f).2.writers p = s.writers p := by
  ext e
  rw [mem_writers_newDFile]
  by_cases he : e = s.dfileCnt
  · simp [he, h, notMem_writers_dfileCnt]
  · simp [he]

/-- What a step does to a pipe that exists, and to the number of its writers. -/
inductive PipeChange (q : Pipe) (n : ℕ) : Pipe → ℕ → Prop where
  | none : PipeChange q n q n
  | added : PipeChange q n q.incWrite (n + 1)
  | removed {m : ℕ} (h : m + 1 = n) : PipeChange q n q.decWrite m
  | slept (t : ℕ) : PipeChange q n (q.sleepWaitRead t) n

theorem newPipe_eq : ∃ s₁ : Descriptors, s₁.dfiles = s.dfiles ∧ s₁.dfileCnt = s.dfileCnt ∧
    s₁.strong = s.strong ∧ s₁.pipes = replaceAt s.pipes s.pipeCnt Pipe.new.incWrite ∧
    s₁.pipeCnt = s.pipeCnt + 1 ∧
    s.newPipe.2 = ((s₁.newDFile ⟨.classPipe s.pipeCnt, .O_RDONLY, false⟩).2.newDFile
      ⟨.classPipe s.pipeCnt, .O_WRONLY, false⟩).2 :=
  ⟨{ s with
      pipes := replaceAt s.pipes s.pipeCnt Pipe.new.incWrite, pipeCnt := s.pipeCnt + 1 },
    rfl, rfl, rfl, rfl, rfl, rfl⟩

theorem newPipe_old (hp : p < s.pipeCnt) :
    s.newPipe.2.pipes p = s.pipes p ∧ s.newPipe.2.writers p = s.writers p := by
  obtain ⟨s₁, hdfiles, hcnt, hstrong, hpipes, -, heq⟩ := s.newPipe_eq
  have hne : (DFileClass.classPipe s.pipeCnt) ≠ .classPipe p := by
    intro h
    cases h
    exact lt_irrefl _ hp
  rw [heq]
  refine ⟨?_, ?_⟩
  · exact (congrFun hpipes p).trans (replaceAt_of_ne hp.ne)
  · rw [writers_newDFile_of_not (fun h => hne h.1), writers_newDFile_of_not (fun h => hne h.1)]
    exact writers_congr hdfiles hcnt hstrong

theorem HandlesCounted.newPipe_new (h : s.HandlesCounted) :
    s.newPipe.2.pipes s.pipeCnt = Pipe.new.incWrite ∧
      (s.newPipe.2.writers s.pipeCnt).card = 1 := by
  obtain ⟨s₁, hdfiles, hcnt, hstrong, hpipes, -, heq⟩ := s.newPipe_eq
  have hempty : s.writers s.pipeCnt = ∅ := by
    rw [Finset.eq_empty_iff_forall_notMem]
    intro d hd
    have hw := (mem_writers.mp hd).1
    exact lt_irrefl _ (h.owner d _ hw.old hw.cls)
  rw [heq]
  refine ⟨?_, ?_⟩
  · exact (congrFun hpipes _).trans replaceAt_self
  · have hwrite : OpenFlags.O_WRONLY.writeable = true := by decide
    have hread : ¬OpenFlags.O_RDONLY.writeable = true := by decide
    rw [card_newDFile_of_writes rfl hwrite, writers_newDFile_of_not fun h => hread h.2,
      writers_congr hdfiles hcnt hstrong, hempty, Finset.card_empty]

theorem deepClone_change (hd : d < s.dfileCnt) (p : ℕ) :
    PipeChange (s.pipes p) (s.writers p).card ((s.deepClone d).2.pipes p)
      ((s.deepClone d).2.writers p).card := by
  have hpipe : (s.deepClone d).2.pipes p = (s.atWritten Pipe.incWrite d).pipes p := rfl
  rw [hpipe, pipes_atWritten _ hd, deepClone]
  by_cases hw : s.IsWriter d p
  · rw [if_pos hw, card_newDFile_of_writes hw.cls hw.writeable, writers_atWritten]
    exact .added
  · rw [if_neg hw, writers_newDFile_of_not fun h => hw ⟨hd, h.1, h.2⟩, writers_atWritten]
    exact .none

theorem HandlesCounted.change (h : s.HandlesCounted) (hp : p < s.pipeCnt)
    (hstep : HandleStep s op s') :
    PipeChange (s.pipes p) (s.writers p).card (s'.pipes p) (s'.writers p).card := by
  cases hstep with
  | newPipe =>
    obtain ⟨hpipe, hwriters⟩ := newPipe_old hp
    rw [hpipe, hwriters]
    exact .none
  | @deepClone d hd hlive =>
    exact deepClone_change hd p
  | @drop d hd hlive =>
    have hone : s.strong d = 1 := by
      have hle := h.strong_le d
      omega
    rw [writers_dropArc hone, pipes_dropArc hone hd]
    by_cases hw : s.IsWriter d p
    · rw [if_pos hw]
      exact .removed (Finset.card_erase_add_one (mem_writers.mpr ⟨hw, hlive⟩))
    · rw [if_neg hw, Finset.erase_eq_of_notMem fun hmem => hw (mem_writers.mp hmem).1]
      exact .none
  | @sleepRead q t hq =>
    have hsame : (s.sleepRead q t).writers p = s.writers p := writers_congr rfl rfl rfl
    rw [hsame]
    by_cases hpq : p = q
    · subst hpq
      have hpipe : (s.sleepRead p t).pipes p = (s.pipes p).sleepWaitRead t := replaceAt_self
      rw [hpipe]
      exact .slept t
    · have hpipe : (s.sleepRead q t).pipes p = s.pipes p := replaceAt_of_ne hpq
      rw [hpipe]
      exact .none

/-! ### Runs -/

theorem writeCnt_decWrite (q : Pipe) : q.decWrite.writeCnt = q.writeCnt - 1 := by
  unfold Pipe.decWrite
  split_ifs <;> rfl

theorem PipeChange.writeCnt (h : PipeChange q n q' n') (hq : q.writeCnt = UInt8.ofNat n) :
    q'.writeCnt = UInt8.ofNat n' := by
  cases h with
  | none => exact hq
  | added =>
    rw [UInt8.ofNat_add, ← hq]
    rfl
  | removed h =>
    rw [writeCnt_decWrite, hq, ← h, UInt8.ofNat_add]
    exact UInt8.add_sub_cancel _ _
  | slept t => exact hq

theorem ofNat_eq_iff {m : ℕ} (hn : n < 256) (hm : m < 256) :
    UInt8.ofNat n = UInt8.ofNat m ↔ n = m := by
  rw [← UInt8.toNat_inj, UInt8.toNat_ofNat', UInt8.toNat_ofNat', Nat.mod_eq_of_lt hn,
    Nat.mod_eq_of_lt hm]

theorem PipeChange.wakes (h : PipeChange q n q' n') (hq : q.writeCnt = UInt8.ofNat n) (hn : n < 256)
    (hwait : q.waitRead ≠ []) :
    q'.waitRead = [] ↔ n ≠ 0 ∧ n' = 0 := by
  cases h with
  | none => exact iff_of_false hwait (by omega)
  | added => exact iff_of_false hwait (by omega)
  | removed h =>
    have hone : q.writeCnt = 1 ↔ n = 1 := by
      rw [hq]
      exact ofNat_eq_iff hn (by decide)
    unfold Pipe.decWrite
    split_ifs with hlast
    · rw [hone] at hlast
      exact iff_of_true rfl (by omega)
    · rw [hone] at hlast
      exact iff_of_false hwait (by omega)
  | slept t => exact iff_of_false (by simp [Pipe.sleepWaitRead]) fun h => h.1 h.2

theorem Handles.of_le (h : s.Handles) (hdfiles : s'.dfiles = s.dfiles)
    (hcnt : s'.dfileCnt = s.dfileCnt) (hstrong : ∀ d, s'.strong d ≤ s.strong d)
    (hpipes : s.pipeCnt ≤ s'.pipeCnt) : s'.Handles where
  strong_le d := (hstrong d).trans (h.strong_le d)
  owner d p hd hcls := (h.owner d p (hcnt ▸ hd) (hdfiles ▸ hcls)).trans_le hpipes

theorem Handles.newDFile (h : s.Handles) (hf : ∀ p, f.cls = .classPipe p → p < s.pipeCnt) :
    (s.newDFile f).2.Handles where
  strong_le d := by
    by_cases hd : d = s.dfileCnt
    · subst hd
      exact replaceAt_self.le
    · exact (replaceAt_of_ne hd).trans_le (h.strong_le d)
  owner d p hd hcls := by
    by_cases hnew : d = s.dfileCnt
    · subst hnew
      have hfile : (s.newDFile f).2.dfiles s.dfileCnt = f := replaceAt_self
      rw [hfile] at hcls
      exact hf p hcls
    · have hfile : (s.newDFile f).2.dfiles d = s.dfiles d := replaceAt_of_ne hnew
      have hlt : d < s.dfileCnt + 1 := hd
      rw [hfile] at hcls
      exact h.owner d p (by omega) hcls

theorem Handles.atWritten (h : s.Handles) (change : Pipe → Pipe) (d : ℕ) :
    (s.atWritten change d).Handles := by
  obtain ⟨pipes, heq⟩ := s.exists_atWritten_eq change d
  rw [heq]
  exact h.of_le rfl rfl (fun _ => le_rfl) le_rfl

theorem Handles.step (h : s.Handles) (hstep : HandleStep s op s') :
    s'.Handles := by
  cases hstep with
  | newPipe =>
    obtain ⟨s₁, hdfiles, hcnt, hstrong, -, hpipeCnt, heq⟩ := s.newPipe_eq
    have hs₁ : s₁.Handles := h.of_le hdfiles hcnt (fun d => (congrFun hstrong d).le) (by omega)
    have hnew : ∀ p, DFileClass.classPipe s.pipeCnt = .classPipe p → p < s₁.pipeCnt := by
      rintro p ⟨⟩
      omega
    rw [heq]
    exact (hs₁.newDFile hnew).newDFile hnew
  | @deepClone d hd hlive =>
    obtain ⟨pipes, heq⟩ := s.exists_atWritten_eq Pipe.incWrite d
    refine (h.atWritten Pipe.incWrite d).newDFile fun p hcls => ?_
    rw [heq]
    exact h.owner d p hd hcls
  | @drop d hd hlive =>
    have hone : s.strong d = 1 := by
      have hle := h.strong_le d
      omega
    rw [dropArc_of_strong_one hone]
    refine Handles.atWritten ?_ _ _
    refine h.of_le rfl rfl (fun e => ?_) le_rfl
    by_cases he : e = d
    · subst he
      exact replaceAt_self.trans_le (Nat.zero_le _)
    · exact (replaceAt_of_ne he).le
  | sleepRead hp => exact h.of_le rfl rfl (fun _ => le_rfl) le_rfl

theorem lt_pipeCnt_of_step (hstep : HandleStep s op s') (hp : p < s'.pipeCnt) :
    p < s.pipeCnt ∨ p = s.pipeCnt ∧ s' = s.newPipe.2 := by
  cases hstep with
  | newPipe =>
    have hlt : p < s.pipeCnt + 1 := hp
    obtain hold | hnew := Nat.lt_succ_iff_lt_or_eq.mp hlt
    · exact .inl hold
    · exact .inr ⟨hnew, rfl⟩
  | @deepClone d hd hlive =>
    obtain ⟨pipes, heq⟩ := s.exists_atWritten_eq Pipe.incWrite d
    rw [deepClone, heq] at hp
    exact .inl hp
  | @drop d hd hlive =>
    left
    unfold dropArc at hp
    simp only at hp
    split_ifs at hp
    · rw [dropDFile_eq] at hp
      obtain ⟨pipes, heq⟩ := exists_atWritten_eq Pipe.decWrite d
      rw [heq] at hp
      exact hp
    · exact hp
  | sleepRead hq => exact .inl hp

theorem handlesCounted_boot : boot.HandlesCounted where
  strong_le _ := Nat.zero_le 1
  owner d _ hd := absurd hd (Nat.not_lt_zero d)
  writeCnt p hp := absurd hp (Nat.not_lt_zero p)

theorem HandlesCounted.step (h : s.HandlesCounted) (hstep : HandleStep s op s') :
    s'.HandlesCounted where
  toHandles := h.toHandles.step hstep
  writeCnt p hp := by
    obtain hold | ⟨rfl, rfl⟩ := lt_pipeCnt_of_step hstep hp
    · exact (h.change hold hstep).writeCnt (h.writeCnt p hold)
    · obtain ⟨hpipe, hcard⟩ := h.newPipe_new
      rw [hpipe, hcard]
      rfl

/-- The three answers of the pipe are right as long as the byte holds the number. -/
theorem HandlesCounted.countExact (h : s.HandlesCounted) (hp : p < s.pipeCnt) :
    s.CountExact p ↔ (s.writers p).card < 256 := by
  have hcnt := h.writeCnt p hp
  have htoNat : (s.pipes p).writeCnt.toNat = (s.writers p).card % 256 := by
    rw [hcnt, UInt8.toNat_ofNat']
  constructor
  · intro hexact
    rw [← hexact.writeCnt, htoNat]
    exact Nat.mod_lt _ (by decide)
  · intro hlt
    refine ⟨htoNat.trans (Nat.mod_eq_of_lt hlt), ?_, fun op s' hstep hwait => ?_⟩
    · rw [Pipe.haveWriter, bne_eq_false_iff_eq, hcnt, ← Finset.card_eq_zero]
      exact ofNat_eq_iff hlt (by decide)
    · rw [(h.change hp hstep).wakes hcnt hlt hwait, Ne, Finset.card_eq_zero, Finset.card_eq_zero]

/-- A pipe whose write end has been cloned a number of times. -/
def cloned : ℕ → Descriptors
  | 0 => boot.newPipe.2
  | n + 1 => ((cloned n).deepClone 1).2

theorem isWriter_deepClone (hw : s.IsWriter d p) :
    (s.deepClone e).2.IsWriter d p := by
  obtain ⟨pipes, heq⟩ := s.exists_atWritten_eq Pipe.incWrite e
  rw [deepClone, heq]
  refine (isWriter_newDFile ?_).mpr ?_
  · exact hw.old.ne
  · exact ⟨hw.old, hw.cls, hw.writeable⟩

/-- The first write end stays, and every clone is another one. -/
structure Cloned (n : ℕ) (s : Descriptors) : Prop where
  isWriter : s.IsWriter 1 0
  live : 0 < s.strong 1
  pipeCnt : s.pipeCnt = 1
  card : (s.writers 0).card = n + 1
  reached : ∃ r, Trace.IsRun HandleStep boot r ∧ Trace.final boot r = s

theorem cloned_cloned (n : ℕ) : Cloned n (cloned n) := by
  induction n with
  | zero =>
    refine ⟨by decide, by decide, rfl, by decide, [(.newPipe, cloned 0)], ⟨.newPipe, trivial⟩, rfl⟩
  | succ n ih =>
    have hd := ih.isWriter.old
    obtain ⟨pipes, heq⟩ := (cloned n).exists_atWritten_eq Pipe.incWrite 1
    obtain ⟨r, hrun, hfinal⟩ := ih.reached
    refine ⟨isWriter_deepClone ih.isWriter, ?_, ?_, ?_, r ++ [(.deepClone 1, cloned (n + 1))], ?_,
      ?_⟩
    · rw [cloned, deepClone, heq]
      exact ih.live.trans_eq (replaceAt_of_ne hd.ne).symm
    · rw [cloned, deepClone, heq]
      exact ih.pipeCnt
    · rw [cloned, deepClone, card_newDFile_of_writes ih.isWriter.cls ih.isWriter.writeable,
        writers_atWritten, ih.card]
    · rw [Trace.isRun_append, hfinal]
      exact ⟨hrun, .deepClone hd ih.live, trivial⟩
    · rw [Trace.final_append]
      rfl

/-- In every state of a run a pipe counts its writers right exactly if there are fewer than
256 of them. -/
theorem countExact_iff_card {r : List (HandleOp × Descriptors)}
    (hrun : Trace.IsRun HandleStep boot r) (hs : s ∈ Trace.states boot r) (hp : p < s.pipeCnt) :
    s.CountExact p ↔ (s.writers p).card < 256 :=
  (Trace.invariant HandlesCounted (fun _ _ _ h hstep => h.step hstep) handlesCounted_boot hrun s
    hs).countExact hp

theorem countExact_iff_card_two : (cloned 1).CountExact 0 := by
  have h := cloned_cloned 1
  obtain ⟨r, hrun, hfinal⟩ := h.reached
  refine (countExact_iff_card hrun (hfinal ▸ Trace.final_mem_states ..) ?_).mpr ?_
  · rw [h.pipeCnt]
    exact Nat.zero_lt_one
  · rw [h.card]
    decide

/-- The 255th clone of a write end takes the count to zero. -/
theorem writers_not_counted : ∃ r s, Trace.IsRun HandleStep boot r ∧ Trace.final boot r = s ∧
    (s.writers 0).card = 256 ∧ (s.pipes 0).haveWriter = false ∧ ¬s.CountExact 0 := by
  have h := cloned_cloned 255
  obtain ⟨r, hrun, hfinal⟩ := h.reached
  have hcounted : (cloned 255).HandlesCounted :=
    Trace.invariant HandlesCounted (fun _ _ _ h hstep => h.step hstep) handlesCounted_boot hrun _
      (hfinal ▸ Trace.final_mem_states ..)
  have hp : 0 < (cloned 255).pipeCnt := by
    rw [h.pipeCnt]
    exact Nat.zero_lt_one
  refine ⟨r, _, hrun, hfinal, h.card, ?_, fun hexact => ?_⟩
  · rw [Pipe.haveWriter, hcounted.writeCnt 0 hp, h.card]
    decide
  · have hlt := (hcounted.countExact hp).mp hexact
    rw [h.card] at hlt
    exact absurd hlt (by decide)

end Descriptors

end Zinix
