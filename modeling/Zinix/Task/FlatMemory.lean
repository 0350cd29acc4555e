import Zinix.Task.ForkIsolation

/-!
# Virtual memory as flat memory

Each task has a memory of its own, an array of bytes that its stores change one at a time
and that no other task changes. The address spaces refine this picture in every run.
-/

namespace Zinix

open Program

namespace Mm

variable {mm : Mm} {p : Phys} {a : ℕ} {f : Frame} {prot : PgFaultProt}

-- The unifier looks into the sums with a page size.
set_option maxRecDepth 10000

theorem access_translate (mm : Mm) (p : Phys) (a : ℕ) (prot : PgFaultProt) (n : ℕ) :
    Sat (access a prot n mm) p (fun r p' => r.2.translate p' a prot = some r.1)
      fun _ => True := by
  induction n generalizing mm p with
  | zero => exact sat_throw trivial
  | succ n ih =>
    unfold access
    apply Sat.get_bind
    cases htrans : mm.translate p a prot with
    | some f => exact sat_pure htrans
    | none => exact (Sat.true _ p).bind fun mm' p' _ => ih mm' p'

theorem Sound.userByte_of_translate (h : Sound mm p) (hf : mm.translate p a prot = some f) :
    mm.userByte p a = some (.ok ((p.mem f).byte (a % pageSize))) := by
  obtain ⟨ha, hvalid, rfl⟩ := h.of_translate hf
  rw [userByte, if_pos ha, seen, if_pos hvalid]
  rfl

theorem Sound.userByte_setByte (h : Sound mm p) (hf : mm.translate p a prot = some f)
    (b : Byte) : mm.userByte (p.setPage f ((p.mem f).setByte (a % pageSize) b)) =
      replaceAt (mm.userByte p) a (some (.ok b)) := by
  obtain ⟨ha, hvalid, rfl⟩ := h.of_translate hf
  have hpos : 0 < pageSize := by decide
  funext x
  by_cases hx : x < userSpaceEnd
  swap
  · have hne : x ≠ a := by
      rintro rfl
      exact hx ha
    rw [replaceAt_of_ne hne, userByte, userByte, if_neg hx, if_neg hx]
  rw [userByte, if_pos hx, h.seen_setPage (isUserPage_down ha) hvalid (isUserPage_down hx)]
  by_cases hpage : Vaddr.down x = Vaddr.down a
  · have hbyte := PageData.byte_setByte (p.mem (p.pte mm.pagetable (Vaddr.down a)).frame)
      (Nat.mod_lt a hpos) (Nat.mod_lt x hpos) b
    rw [if_pos hpage, Option.map_some, Except.map, hbyte]
    by_cases hxa : x = a
    · rw [hxa, replaceAt_self, if_pos rfl]
    · have hmod : x % pageSize ≠ a % pageSize := by
        simp only [Vaddr.down, pageSize] at hpage ⊢
        omega
      rw [replaceAt_of_ne hxa, if_neg hmod, userByte, if_pos hx, hpage, seen, if_pos hvalid]
      rfl
  · have hxa : x ≠ a := by
      rintro rfl
      exact hpage rfl
    rw [if_neg hpage, replaceAt_of_ne hxa, userByte, if_pos hx]

theorem Sound.userLoad (h : Sound mm p) (a : ℕ) (prot : PgFaultProt) :
    Sat (mm.userLoad a prot) p (fun r p' => r.2.userByte p' = mm.userByte p ∧
      mm.userByte p a = some (.ok r.1)) fun _ => True := by
  unfold Mm.userLoad
  refine (((h.access a prot accessTries).and (access_translate mm p a prot accessTries)).mono
    (fun _ _ hq => hq) fun _ _ => trivial).bind ?_
  rintro ⟨f, mm'⟩ p' ⟨hfurther, htrans⟩
  have hsame := funext (userByte_congr hfurther.seen)
  apply Sat.get_bind
  refine sat_pure ⟨hsame, ?_⟩
  rw [← hsame]
  exact hfurther.sound'.userByte_of_translate htrans

theorem Sound.userStore (h : Sound mm p) (a : ℕ) (b : Byte) :
    Sat (mm.userStore a b) p
      (fun mm' p' => mm'.userByte p' = replaceAt (mm.userByte p) a (some (.ok b)))
      fun _ => True := by
  unfold Mm.userStore
  refine (((h.access a .write accessTries).and (access_translate mm p a .write accessTries)).mono
    (fun _ _ hq => hq) fun _ _ => trivial).bind ?_
  rintro ⟨f, mm'⟩ p' ⟨hfurther, htrans⟩
  refine Sat.modify_bind (sat_pure ?_)
  rw [hfurther.sound'.userByte_setByte htrans b, funext (userByte_congr hfurther.seen)]

end Mm

structure FlatMemories where
  cnt : ℕ
  mem : ℕ → ℕ → Option (Checked Byte)

/-- A store changes one byte of one memory and a load none, a fork copies a memory, and
whatever else a task does changes no memory but its own. -/
def FlatMemories.Step (m : FlatMemories) (a : SpaceAction) (m' : FlatMemories) : Prop :=
  (∀ j < m.cnt, a.space ≠ some j → m'.mem j = m.mem j) ∧
    match a with
    | .load i _ _ => m'.mem i = m.mem i
    | .store i vaddr b => m'.mem i = replaceAt (m.mem i) vaddr (some (.ok b))
    | .fork i => m'.mem m.cnt = m.mem i
    | _ => True

namespace Spaces

variable {s t : Spaces} {i j : ℕ} {mm : Mm} {a : SpaceAction} {r : List (SpaceAction × Spaces)}

def flat (s : Spaces) : FlatMemories :=
  ⟨s.cnt, fun i x => (s.mms i).bind fun mm => mm.userByte s.phys x⟩

theorem flat_mem (hi : s.mms i = some mm) : s.flat.mem i = mm.userByte s.phys := by
  funext x
  simp only [flat, hi, Option.bind_some]

theorem Changed.flat_mem {o : Option ℕ} (hc : Changed s o t) (h : Good s) (hj : j < s.cnt)
    (hne : o ≠ some j) : t.flat.mem j = s.flat.mem j := by
  cases hmm : s.mms j with
  | some mm =>
    obtain ⟨hget, huntouched⟩ := hc.untouched h hmm hne
    rw [Spaces.flat_mem hmm, Spaces.flat_mem hget]
    exact funext (Mm.userByte_congr fun v hv => huntouched.seen (h.separate.sane j mm hmm) hv)
  | none =>
    have hnone : t.mms j = none := by
      cases hc with
      | made hm => exact (replaceAt_of_ne hj.ne).trans hmm
      | worked ho hi _ | exchanged ho hi _ _ | dropped ho hi _ =>
        refine (replaceAt_of_ne ?_).trans hmm
        rintro rfl
        exact hne ho
    funext x
    simp only [flat, hmm, hnone, Option.bind_none]

theorem Good.flat_step (h : Good s) (hstep : Step s a t) : s.flat.Step a t.flat := by
  refine ⟨fun j hj hne => (h.changed hstep).flat_mem h hj hne, ?_⟩
  cases a with
  | load i vaddr prot =>
    obtain ⟨mm, mm', p, hi, hrun, rfl⟩ := onSpace_eq_ok hstep
    have hload : Sat (do return (← mm.userLoad vaddr prot).2) s.phys
        (fun mm' p' => mm'.userByte p' = mm.userByte s.phys) fun _ => True :=
      ((h.separate.sane i mm hi).sound.userLoad vaddr prot).bind fun _ _ hr => hr.1
    exact (flat_mem replaceAt_self).trans ((hload.of_ok hrun).trans (flat_mem hi).symm)
  | store i vaddr b =>
    obtain ⟨mm, mm', p, hi, hrun, rfl⟩ := onSpace_eq_ok hstep
    have hstore := ((h.separate.sane i mm hi).sound.userStore vaddr b).of_ok hrun
    rw [← flat_mem hi] at hstore
    exact (flat_mem replaceAt_self).trans hstore
  | fork i =>
    obtain ⟨mm, hi, hstep⟩ := Checked.bind_eq_ok.mp hstep
    obtain ⟨⟨child, p⟩, hrun, hstep⟩ := Checked.bind_eq_ok.mp hstep
    have hi := Checked.unwrap_eq_ok.mp hi
    cases hstep
    have hreads := funext (h.forkRight hi hrun).reads
    exact (flat_mem replaceAt_self).trans (hreads.trans (flat_mem hi).symm)
  | create | mmap | brk | execve | drop => trivial

/-- In every run what the tasks see goes the way of private flat memories, and what a load
returns is what the memory has at its address. -/
theorem flat_of_run (hs : Start s) (hrun : Trace.IsRun Step s r) :
    Trace.IsRun FlatMemories.Step s.flat (r.map fun x => (x.1, x.2.flat)) ∧
      ∀ t ∈ Trace.states s r, ∀ i mm vaddr prot b mm' p', t.mms i = some mm →
        mm.userLoad vaddr prot t.phys = .ok ((b, mm'), p') →
        t.flat.mem i vaddr = some (.ok b) := by
  have hgood := hs.good
  refine ⟨?_, fun t ht i mm vaddr prot b mm' p' hi hload => ?_⟩
  · clear hs
    induction r generalizing s with
    | nil => trivial
    | cons x r ih => exact ⟨hgood.flat_step hrun.1, ih hrun.2 (hgood.step hrun.1)⟩
  · have hsound := ((hgood.states hrun t ht).separate.sane i mm hi).sound
    rw [flat_mem hi]
    exact ((hsound.userLoad vaddr prot).of_ok hload).2

/-- A task stores to its memory, forks, and the child stores to the same address. -/
theorem flat_of_run_fork : ∃ t r, Trace.IsRun Step boot r ∧ t ∈ Trace.states boot r ∧
    t.flat.mem 0 0x1000 = some (.ok 7) ∧ t.flat.mem 1 0x1000 = some (.ok 9) ∧
    Trace.IsRun FlatMemories.Step boot.flat (r.map fun x => (x.1, x.2.flat)) := by
  have hrun : ([.create noSegments, .mmap 0 0x1000 0x1000 3 0x20 none 0, .store 0 0x1000 7,
      .fork 0, .store 1 0x1000 9].foldlM exec boot).map
      (fun t => (t.flat.mem 0 0x1000, t.flat.mem 1 0x1000)) = .ok (some (.ok 7), some (.ok 9)) := by
    decide +kernel
  obtain ⟨t, ht, hmem⟩ := Checked.map_eq_ok.mp hrun
  obtain ⟨hparent, hchild⟩ := Prod.mk.inj hmem
  obtain ⟨r, hr, hin⟩ := exists_run ht
  exact ⟨t, r, hr, hin, hparent, hchild, (flat_of_run start_boot hr).1⟩

end Spaces

end Zinix
