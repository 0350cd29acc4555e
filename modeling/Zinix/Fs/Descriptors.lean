import Zinix.Fs.DFile
import Zinix.Fs.PipeStretch

/-!
# References to open files

The references to an open file are counted by the entries of the descriptor tables, apart
from those a call holds while it runs. A pipe has a writer as long as there is a reference
to its write end.
-/

namespace Zinix.Descriptors

variable {s s₀ : Descriptors} {t d p : ℕ} {held : Multiset ℕ}

def entries (s : Descriptors) (d : ℕ) : ℕ :=
  ∑ t ∈ Finset.range s.taskCnt, (s.opened t).count (some d)

def optHeld (file : Option ℕ) : Multiset ℕ := file.toList

@[simp] theorem optHeld_none : optHeld none = 0 := rfl

@[simp] theorem optHeld_some (d : ℕ) : optHeld (some d) = {d} := rfl

theorem count_optHeld (file : Option ℕ) (d : ℕ) :
    (optHeld file).count d = if file = some d then 1 else 0 := by
  cases file with
  | none => simp
  | some e => simp [Multiset.count_singleton, eq_comm]

def tableHeld (opened : List (Option ℕ)) : Multiset ℕ := (opened.map optHeld).sum

theorem count_tableHeld (opened : List (Option ℕ)) (d : ℕ) :
    (tableHeld opened).count d = opened.count (some d) := by
  induction opened with
  | nil => simp [tableHeld]
  | cons file rest ih =>
    rw [tableHeld, List.map_cons, List.sum_cons, Multiset.count_add, count_optHeld,
      List.count_cons, ← ih, tableHeld, Nat.add_comm]
    simp

/-- The number of writers of a pipe, given the references to its write end. -/
def writersFor (refs : ℕ) : UInt8 := if refs = 0 then 0 else 1

theorem writersFor_zero : writersFor 0 = 0 := rfl

theorem writersFor_pos {refs : ℕ} (h : 0 < refs) : writersFor refs = 1 := if_neg h.ne'

/-- The counts of references are right, given those held by the call that runs. -/
structure Counted (s : Descriptors) (held : Multiset ℕ) : Prop where
  counted : ∀ d, s.strong d = s.entries d + held.count d
  old : ∀ d, 0 < s.strong d → d < s.dfileCnt
  empty : ∀ t, s.taskCnt ≤ t → s.opened t = []

/-- Moreover, every pipe has a writer as long as its write end is referred to. -/
structure Sound (s : Descriptors) (held : Multiset ℕ) : Prop extends Counted s held where
  owner : ∀ d p, d < s.dfileCnt → (s.dfiles d).cls = .classPipe p → p < s.pipeCnt
  writer : ∀ p < s.pipeCnt, ∃ w, s.IsWriter w p
  unique : ∀ p v w, s.IsWriter v p → s.IsWriter w p → v = w
  writeCnt : ∀ p w, s.IsWriter w p → (s.pipes p).writeCnt = writersFor (s.strong w)
  waiting : ∀ p, (s.pipes p).waitRead ≠ [] → (s.pipes p).writeCnt ≠ 0

/-- What a call of task `t` leaves alone: the tables of the other tasks, and what kind of
file each open file is. -/
structure Frame (t : ℕ) (s₀ s : Descriptors) : Prop where
  dfileCnt : s₀.dfileCnt ≤ s.dfileCnt
  cls : ∀ d < s₀.dfileCnt, (s.dfiles d).cls = (s₀.dfiles d).cls
  openFlags : ∀ d < s₀.dfileCnt, (s.dfiles d).openFlags = (s₀.dfiles d).openFlags
  pipeCnt : s₀.pipeCnt ≤ s.pipeCnt
  taskCnt : s₀.taskCnt ≤ s.taskCnt
  opened : ∀ u < s₀.taskCnt, u ≠ t → s.opened u = s₀.opened u
  exited : ∀ u < s₀.taskCnt, s.exited u = s₀.exited u
  noExit : ∀ u, s.exited u = true → s₀.exited u = true

/-- A point in a call of task `t` that started in `s₀`. -/
structure Within (t : ℕ) (s₀ s : Descriptors) (held : Multiset ℕ) : Prop where
  sound : s.Sound held
  frame : Frame t s₀ s

theorem Frame.refl (t : ℕ) (s : Descriptors) : Frame t s s where
  dfileCnt := le_rfl
  cls := fun _ _ => rfl
  openFlags := fun _ _ => rfl
  pipeCnt := le_rfl
  taskCnt := le_rfl
  opened := fun _ _ _ => rfl
  exited := fun _ _ => rfl
  noExit := fun _ h => h

theorem Sound.start (h : s.Sound held) (t : ℕ) : Within t s s held := ⟨h, Frame.refl t s⟩

section Primitives

variable {held' : Multiset ℕ} {file : Option ℕ} {fd : ℕ} {f : DFile}

theorem Sound.strong_pos_of_held (h : s.Sound held) (hd : d ∈ held) : 0 < s.strong d := by
  have hcount := h.counted d
  have hpos := Multiset.count_pos.mpr hd
  omega

theorem Sound.lt_taskCnt (h : s.Sound held) (ht : s.opened t ≠ []) : t < s.taskCnt := by
  by_contra hge
  exact ht (h.empty t (by omega))

theorem Sound.strong_pos_of_mem (h : s.Sound held) (hd : some d ∈ s.opened t) :
    0 < s.strong d := by
  have ht : t < s.taskCnt := h.lt_taskCnt (List.ne_nil_of_mem hd)
  have hle : (s.opened t).count (some d) ≤ s.entries d :=
    Finset.single_le_sum (f := fun t => (s.opened t).count (some d)) (fun _ _ => Nat.zero_le _)
      (Finset.mem_range.mpr ht)
  have hpos := List.count_pos_iff.mpr hd
  have hcount := h.counted d
  omega

theorem Within.held_eq (h : Within t s₀ s held) (heq : held = held') :
    Within t s₀ s held' := heq ▸ h

theorem Within.recount (h : Within t s₀ s held) {strong : ℕ → ℕ} {pipes : ℕ → Pipe}
    (hcount : ∀ d, strong d = s.entries d + held'.count d)
    (hpos : ∀ d, 0 < strong d → 0 < s.strong d)
    (hcnt : ∀ p w, s.IsWriter w p → (pipes p).writeCnt = writersFor (strong w))
    (hwait : ∀ p, (pipes p).waitRead ≠ [] → (pipes p).writeCnt ≠ 0) :
    Within t s₀ { s with strong := strong, pipes := pipes } held' where
  sound :=
    { counted := hcount
      old := fun d hd => h.sound.old d (hpos d hd)
      empty := h.sound.empty
      owner := h.sound.owner
      writer := fun p hp => (h.sound.writer p hp).imp fun _ hw => ⟨hw.old, hw.cls, hw.writeable⟩
      unique := fun p v w hv hw => h.sound.unique p v w ⟨hv.old, hv.cls, hv.writeable⟩
        ⟨hw.old, hw.cls, hw.writeable⟩
      writeCnt := fun p w hw => hcnt p w ⟨hw.old, hw.cls, hw.writeable⟩
      waiting := hwait }
  frame := { h.frame with }

theorem Within.cloneArc (h : Within t s₀ s held) (hd : 0 < s.strong d) :
    Within t s₀ (s.cloneArc d) ({d} + held) := by
  have hrepl : ∀ e, replaceAt s.strong d (s.strong d + 1) e =
      s.strong e + if e = d then 1 else 0 := by
    intro e
    rw [replaceAt_apply]
    split_ifs with he
    · rw [he]
    · rfl
  refine h.recount (fun e => ?_) (fun e he => ?_) (fun p w hw => ?_) h.sound.waiting
  · rw [hrepl, h.sound.counted e, Multiset.count_add, Multiset.count_singleton]
    omega
  · rw [hrepl] at he
    split_ifs at he with hed
    · rwa [hed]
    · exact he
  · rw [h.sound.writeCnt p w hw, hrepl]
    split_ifs with hwd
    · subst hwd
      rw [writersFor_pos hd, writersFor_pos (Nat.succ_pos _)]
    · rfl

theorem decWrite_of_one {q : Pipe} (h : q.writeCnt = 1) :
    q.decWrite.writeCnt = 0 ∧ q.decWrite.waitRead = [] := by
  rw [Pipe.decWrite, if_pos h]
  exact ⟨by simp [Pipe.wakeUpRead, h], rfl⟩

theorem dropDFile_of_writer (hw : s.IsWriter d p) :
    s.dropDFile d = { s with pipes := replaceAt s.pipes p (s.pipes p).decWrite } := by
  rw [dropDFile, hw.cls]
  simp [hw.writeable]

theorem dropDFile_of_other (hd : d < s.dfileCnt) (hw : ∀ p, ¬s.IsWriter d p) :
    s.dropDFile d = s := by
  rw [dropDFile]
  cases hcls : (s.dfiles d).cls with
  | classInode i => rfl
  | classTerminal ttype => rfl
  | classPipe p =>
    cases hflags : (s.dfiles d).openFlags.writeable with
    | true => exact absurd ⟨hd, hcls, hflags⟩ (hw p)
    | false => simp

theorem Within.dropArc (h : Within t s₀ s ({d} + held)) : Within t s₀ (s.dropArc d) held := by
  have hpos : 0 < s.strong d := h.sound.strong_pos_of_held (by simp)
  have hcount : ∀ e, replaceAt s.strong d (s.strong d - 1) e =
      s.entries e + held.count e := by
    intro e
    have he := h.sound.counted e
    rw [Multiset.count_add, Multiset.count_singleton] at he
    rw [replaceAt_apply]
    split_ifs with hed
    · subst hed
      rw [if_pos rfl] at he
      omega
    · rw [if_neg hed] at he
      omega
  have hle : ∀ e, 0 < replaceAt s.strong d (s.strong d - 1) e → 0 < s.strong e := by
    intro e he
    rw [replaceAt_apply] at he
    split_ifs at he with hed
    · rwa [hed]
    · exact he
  have hother : ∀ w, w ≠ d → replaceAt s.strong d (s.strong d - 1) w = s.strong w :=
    fun w hw => replaceAt_of_ne hw
  rw [Descriptors.dropArc]
  simp only [replaceAt_self]
  split_ifs with hlast
  · by_cases hwriter : ∃ p, s.IsWriter d p
    · -- the last reference to a write end takes the writer away
      obtain ⟨p, hp⟩ := hwriter
      have hone : (s.pipes p).writeCnt = 1 := by
        rw [h.sound.writeCnt p d hp, writersFor_pos hpos]
      obtain ⟨hcnt, hwait⟩ := decWrite_of_one hone
      rw [dropDFile_of_writer (s := { s with strong := replaceAt s.strong d (s.strong d - 1) })
        ⟨hp.old, hp.cls, hp.writeable⟩]
      refine h.recount hcount hle (fun q w hw => ?_) (fun q hq => ?_)
      · dsimp only
        by_cases hqp : q = p
        · subst hqp
          rw [h.sound.unique q w d hw hp, replaceAt_self, replaceAt_self, hcnt, hlast,
            writersFor_zero]
        · have hwd : w ≠ d := by
            rintro rfl
            exact hqp (DFileClass.classPipe.inj (hw.cls.symm.trans hp.cls))
          rw [replaceAt_of_ne hqp, hother w hwd]
          exact h.sound.writeCnt q w hw
      · dsimp only at hq ⊢
        by_cases hqp : q = p
        · subst hqp
          rw [replaceAt_self] at hq
          exact absurd hwait hq
        · rw [replaceAt_of_ne hqp] at hq ⊢
          exact h.sound.waiting q hq
    · rw [dropDFile_of_other (s := { s with strong := replaceAt s.strong d (s.strong d - 1) })
        (h.sound.old d hpos) (fun p hp => hwriter ⟨p, hp.old, hp.cls, hp.writeable⟩)]
      refine h.recount hcount hle (fun p w hw => ?_) h.sound.waiting
      rw [hother w (by
        rintro rfl
        exact hwriter ⟨p, hw⟩)]
      exact h.sound.writeCnt p w hw
  · refine h.recount hcount hle (fun p w hw => ?_) h.sound.waiting
    by_cases hwd : w = d
    · subst hwd
      rw [replaceAt_self, h.sound.writeCnt p w hw, writersFor_pos hpos,
        writersFor_pos (Nat.pos_of_ne_zero hlast)]
    · rw [hother w hwd]
      exact h.sound.writeCnt p w hw

theorem Within.cloneOpt (h : Within t s₀ s held) (hfile : ∀ d ∈ file, 0 < s.strong d) :
    Within t s₀ (s.cloneOpt file) (optHeld file + held) := by
  cases file with
  | none => exact h.held_eq (by simp)
  | some d => exact h.cloneArc (hfile d rfl)

theorem Within.dropOpt (h : Within t s₀ s (optHeld file + held)) :
    Within t s₀ (s.dropOpt file) held := by
  cases file with
  | none => exact h.held_eq (by simp)
  | some d => exact h.dropArc

theorem slot_mem (h : s.slot t fd = some d) : some d ∈ s.opened t := by
  rw [slot, Option.join_eq_some_iff] at h
  exact List.mem_of_getElem? h

theorem Sound.strong_slot (h : s.Sound held) (t fd : ℕ) : ∀ d ∈ s.slot t fd, 0 < s.strong d :=
  fun _ hd => h.strong_pos_of_mem (slot_mem hd)

/-- Storing a reference in a table takes it from the call and hands it the old one. -/
theorem entries_setSlot (ht : t < s.taskCnt) (hfd : fd < (s.opened t).length) (file : Option ℕ)
    (d : ℕ) :
    (s.setSlot t fd file).entries d + (optHeld (s.slot t fd)).count d =
      s.entries d + (optHeld file).count d := by
  have hmem := Finset.mem_range.mpr ht
  have hslot : s.slot t fd = (s.opened t)[fd] := by
    rw [slot, List.getElem?_eq_getElem hfd, Option.join_some]
  have hset : ((s.opened t).set fd file).count (some d) + (optHeld (s.slot t fd)).count d =
      (s.opened t).count (some d) + (optHeld file).count d := by
    rw [List.count_set hfd, count_optHeld, count_optHeld, hslot]
    have hge : (if (s.opened t)[fd] = some d then 1 else 0) ≤ (s.opened t).count (some d) := by
      split_ifs with h
      · exact List.count_pos_iff.mpr (h ▸ List.getElem_mem hfd)
      · exact Nat.zero_le _
    simp only [beq_iff_eq]
    omega
  have hrest : ∑ u ∈ (Finset.range s.taskCnt).erase t,
      ((s.setSlot t fd file).opened u).count (some d) =
        ∑ u ∈ (Finset.range s.taskCnt).erase t, (s.opened u).count (some d) := by
    refine Finset.sum_congr rfl fun u hu => ?_
    have hsame : (s.setSlot t fd file).opened u = s.opened u :=
      replaceAt_of_ne (Finset.ne_of_mem_erase hu)
    rw [hsame]
  have hself : (s.setSlot t fd file).opened t = (s.opened t).set fd file := replaceAt_self
  have hnew := Finset.add_sum_erase _ (fun u => ((s.setSlot t fd file).opened u).count (some d)) hmem
  have hold := Finset.add_sum_erase _ (fun u => (s.opened u).count (some d)) hmem
  have hcnt : (s.setSlot t fd file).taskCnt = s.taskCnt := rfl
  simp only [hself] at hnew
  simp only [entries, hcnt]
  omega

theorem Within.setSlot (h : Within t s₀ s (optHeld file + held)) (hfd : fd < (s.opened t).length) :
    Within t s₀ (s.setSlot t fd file) (optHeld (s.slot t fd) + held) where
  sound :=
    { counted := by
        intro d
        have ht := h.sound.lt_taskCnt (t := t) (by
          rintro hnil
          simp [hnil] at hfd)
        have hentries := entries_setSlot ht hfd file d
        have hd := h.sound.counted d
        have hstrong : (s.setSlot t fd file).strong d = s.strong d := rfl
        rw [Multiset.count_add] at hd ⊢
        omega
      old := h.sound.old
      empty := by
        intro u hu
        have hne : u ≠ t := by
          rintro rfl
          rw [h.sound.empty u hu] at hfd
          simp at hfd
        exact (replaceAt_of_ne hne).trans (h.sound.empty u hu)
      owner := h.sound.owner
      writer := fun p hp => (h.sound.writer p hp).imp fun _ hw => ⟨hw.old, hw.cls, hw.writeable⟩
      unique := fun p v w hv hw => h.sound.unique p v w ⟨hv.old, hv.cls, hv.writeable⟩
        ⟨hw.old, hw.cls, hw.writeable⟩
      writeCnt := fun p w hw => h.sound.writeCnt p w ⟨hw.old, hw.cls, hw.writeable⟩
      waiting := h.sound.waiting }
  frame :=
    { h.frame with
      opened := fun u hu hne => (replaceAt_of_ne hne).trans (h.frame.opened u hu hne) }

theorem Within.setPipe (h : Within t s₀ s held) {pipe : Pipe}
    (hcnt : pipe.writeCnt = (s.pipes p).writeCnt)
    (hwait : pipe.waitRead ≠ [] → pipe.writeCnt ≠ 0) :
    Within t s₀ { s with pipes := replaceAt s.pipes p pipe } held := by
  refine h.recount h.sound.counted (fun _ hd => hd) (fun q w hw => ?_) (fun q => ?_)
  · rw [replaceAt_apply]
    split_ifs with hq
    · subst hq
      rw [hcnt]
      exact h.sound.writeCnt q w hw
    · exact h.sound.writeCnt q w hw
  · rw [replaceAt_apply]
    split_ifs with hq
    · exact hwait
    · exact h.sound.waiting q

theorem Within.relabel (h : Within t s₀ s held) {dfiles : ℕ → DFile}
    (hcls : ∀ d < s.dfileCnt, (dfiles d).cls = (s.dfiles d).cls)
    (hflags : ∀ d < s.dfileCnt, (dfiles d).openFlags = (s.dfiles d).openFlags) :
    Within t s₀ { s with dfiles := dfiles } held := by
  have hwriter : ∀ w p, IsWriter { s with dfiles := dfiles } w p ↔ s.IsWriter w p := by
    intro w p
    constructor
    · rintro ⟨hold, hc, hf⟩
      exact ⟨hold, (hcls w hold).symm.trans hc, by rw [← hflags w hold]; exact hf⟩
    · rintro ⟨hold, hc, hf⟩
      exact ⟨hold, (hcls w hold).trans hc, by dsimp only; rw [hflags w hold]; exact hf⟩
  have hle := h.frame.dfileCnt
  exact
    { sound :=
        { counted := h.sound.counted
          old := h.sound.old
          empty := h.sound.empty
          owner := fun d p hd hc => h.sound.owner d p hd ((hcls d hd).symm.trans hc)
          writer := fun p hp => (h.sound.writer p hp).imp fun w hw => (hwriter w p).mpr hw
          unique := fun p v w hv hw =>
            h.sound.unique p v w ((hwriter v p).mp hv) ((hwriter w p).mp hw)
          writeCnt := fun p w hw => h.sound.writeCnt p w ((hwriter w p).mp hw)
          waiting := h.sound.waiting }
      frame :=
        { h.frame with
          cls := fun d hd => (hcls d (hd.trans_le hle)).trans (h.frame.cls d hd)
          openFlags := fun d hd => (hflags d (hd.trans_le hle)).trans (h.frame.openFlags d hd) } }

theorem Within.setCloexecTo (h : Within t s₀ s held) (d : ℕ) (flag : Bool) :
    Within t s₀ (s.setCloexecTo d flag) held := by
  refine h.relabel (fun e _ => ?_) (fun e _ => ?_) <;>
  · rw [replaceAt_apply]
    split_ifs with he
    · rw [he]
    · rfl

theorem isWriter_newDFile {w : ℕ} (hw : w ≠ s.dfileCnt) :
    (s.newDFile f).2.IsWriter w p ↔ s.IsWriter w p := by
  have hsame : (s.newDFile f).2.dfiles w = s.dfiles w := replaceAt_of_ne hw
  have hcnt : (s.newDFile f).2.dfileCnt = s.dfileCnt + 1 := rfl
  constructor
  · rintro ⟨hold, hc, hf⟩
    rw [hsame] at hc hf
    exact ⟨by omega, hc, hf⟩
  · rintro ⟨hold, hc, hf⟩
    exact ⟨by omega, hsame ▸ hc, hsame ▸ hf⟩

theorem Counted.strong_new (h : s.Counted held) : s.strong s.dfileCnt = 0 := by
  by_contra hne
  exact lt_irrefl _ (h.old _ (Nat.pos_of_ne_zero hne))

theorem Frame.newDFile (h : Frame t s₀ s) (f : DFile) : Frame t s₀ (s.newDFile f).2 :=
  { h with
    dfileCnt := h.dfileCnt.trans (Nat.le_succ _)
    cls := fun d hd => by
      rw [← h.cls d hd]
      exact congrArg DFile.cls (replaceAt_of_ne (hd.trans_le h.dfileCnt).ne)
    openFlags := fun d hd => by
      rw [← h.openFlags d hd]
      exact congrArg DFile.openFlags (replaceAt_of_ne (hd.trans_le h.dfileCnt).ne) }

theorem Counted.newDFile (h : s.Counted held) (f : DFile) :
    (s.newDFile f).2.Counted ({s.dfileCnt} + held) where
  counted := by
    intro d
    have hd := h.counted d
    have hnew := h.strong_new
    have hentries : (s.newDFile f).2.entries d = s.entries d := rfl
    have hstrong : (s.newDFile f).2.strong d = replaceAt s.strong s.dfileCnt 1 d := rfl
    rw [hentries, hstrong, Multiset.count_add, Multiset.count_singleton, replaceAt_apply]
    split_ifs with he
    · subst he
      omega
    · omega
  old := by
    intro d hd
    have hcnt : (s.newDFile f).2.dfileCnt = s.dfileCnt + 1 := rfl
    by_cases he : d = s.dfileCnt
    · omega
    · have hstrong : (s.newDFile f).2.strong d = s.strong d := replaceAt_of_ne he
      have hlt := h.old d (hstrong ▸ hd)
      omega
  empty := h.empty

theorem Within.newDFile (h : Within t s₀ s held)
    (howner : ∀ p, f.cls = .classPipe p → p < s.pipeCnt)
    (hnot : ∀ p, f.cls = .classPipe p → f.openFlags.writeable = false) :
    Within t s₀ (s.newDFile f).2 ({s.dfileCnt} + held) := by
  have hnode : (s.newDFile f).2.dfiles s.dfileCnt = f := replaceAt_self
  have hne : ∀ w p, (s.newDFile f).2.IsWriter w p → w ≠ s.dfileCnt := by
    rintro w p ⟨-, hc, hf⟩ rfl
    rw [hnode] at hc hf
    rw [hnot p hc] at hf
    cases hf
  have hold : ∀ w p, (s.newDFile f).2.IsWriter w p → s.IsWriter w p := fun w p hw =>
    (isWriter_newDFile (hne w p hw)).mp hw
  exact
    { sound :=
        { h.sound.toCounted.newDFile f with
          owner := by
            intro d p hd hc
            by_cases he : d = s.dfileCnt
            · rw [he, hnode] at hc
              exact howner p hc
            · have hcnt : (s.newDFile f).2.dfileCnt = s.dfileCnt + 1 := rfl
              have hsame : (s.newDFile f).2.dfiles d = s.dfiles d := replaceAt_of_ne he
              exact h.sound.owner d p (by omega) (hsame ▸ hc)
          writer := by
            intro p hp
            obtain ⟨w, hw⟩ := h.sound.writer p hp
            exact ⟨w, (isWriter_newDFile hw.old.ne).mpr hw⟩
          unique := fun p v w hv hw => h.sound.unique p v w (hold v p hv) (hold w p hw)
          writeCnt := by
            intro p w hw
            have hstrong : (s.newDFile f).2.strong w = s.strong w := replaceAt_of_ne (hne w p hw)
            rw [hstrong]
            exact h.sound.writeCnt p w (hold w p hw)
          waiting := h.sound.waiting }
      frame := h.frame.newDFile f }

/-- A new pipe has one writer, and the caller gets a reference to either end. -/
theorem Within.newPipe (h : Within t s₀ s held) :
    Within t s₀ s.newPipe.2 ({s.newPipe.1.2} + ({s.newPipe.1.1} + held)) := by
  let s₁ : Descriptors :=
    { s with pipes := replaceAt s.pipes s.pipeCnt Pipe.new.incWrite, pipeCnt := s.pipeCnt + 1 }
  let r : DFile := ⟨.classPipe s.pipeCnt, .O_RDONLY, false⟩
  let f : DFile := ⟨.classPipe s.pipeCnt, .O_WRONLY, false⟩
  have hcounted₁ : s₁.Counted held := { h.sound.toCounted with }
  have hcounted := (hcounted₁.newDFile r).newDFile f
  have hframe : Frame t s₀ s₁ := { h.frame with pipeCnt := h.frame.pipeCnt.trans (Nat.le_succ _) }
  have hwrite : s.newPipe.2.dfiles (s.dfileCnt + 1) = f := replaceAt_self
  have hread : s.newPipe.2.dfiles s.dfileCnt = r :=
    (replaceAt_of_ne (Nat.succ_ne_self _).symm).trans replaceAt_self
  have hother : ∀ d < s.dfileCnt, s.newPipe.2.dfiles d = s.dfiles d := fun d hd =>
    (replaceAt_of_ne (show d ≠ s.dfileCnt + 1 by omega)).trans
      (replaceAt_of_ne (show d ≠ s.dfileCnt by omega))
  have hcnt : s.newPipe.2.dfileCnt = s.dfileCnt + 2 := rfl
  have hpipes : ∀ q, s.newPipe.2.pipes q = replaceAt s.pipes s.pipeCnt Pipe.new.incWrite q :=
    fun _ => rfl
  have hstrong : ∀ d < s.dfileCnt, s.newPipe.2.strong d = s.strong d := fun d hd =>
    (replaceAt_of_ne (show d ≠ s.dfileCnt + 1 by omega)).trans
      (replaceAt_of_ne (show d ≠ s.dfileCnt by omega))
  -- the write ends are the old ones and the new one
  have hwriter : ∀ w p, s.newPipe.2.IsWriter w p ↔
      s.IsWriter w p ∨ (w = s.dfileCnt + 1 ∧ p = s.pipeCnt) := by
    intro w p
    constructor
    · rintro ⟨hold, hc, hf⟩
      rcases Nat.lt_trichotomy w s.dfileCnt with hlt | heq | hgt
      · rw [hother w hlt] at hc hf
        exact Or.inl ⟨hlt, hc, hf⟩
      · rw [heq, hread] at hf
        exact absurd hf (show ¬OpenFlags.O_RDONLY.writeable = true by decide)
      · have heq : w = s.dfileCnt + 1 := by omega
        rw [heq, hwrite] at hc
        exact Or.inr ⟨heq, (DFileClass.classPipe.inj hc).symm⟩
    · rintro (hw | ⟨rfl, rfl⟩)
      · have hlt := hw.old
        exact ⟨by omega, hother w hlt ▸ hw.cls, hother w hlt ▸ hw.writeable⟩
      · exact ⟨by omega, congrArg DFile.cls hwrite, (congrArg (fun g => g.openFlags.writeable)
          hwrite).trans (show OpenFlags.O_WRONLY.writeable = true by decide)⟩
  have hne : ∀ w p, s.IsWriter w p → p ≠ s.pipeCnt := fun w p hw =>
    (h.sound.owner w p hw.old hw.cls).ne
  have hsound : s.newPipe.2.Sound ({s.newPipe.1.2} + ({s.newPipe.1.1} + held)) :=
    { hcounted with
      owner := by
        intro d p hd hc
        have hlt : p < s.pipeCnt ∨ p = s.pipeCnt := by
          rcases Nat.lt_trichotomy d s.dfileCnt with hlt | heq | hgt
          · rw [hother d hlt] at hc
            exact Or.inl (h.sound.owner d p hlt hc)
          · rw [heq, hread] at hc
            exact Or.inr (DFileClass.classPipe.inj hc).symm
          · rw [show d = s.dfileCnt + 1 by omega, hwrite] at hc
            exact Or.inr (DFileClass.classPipe.inj hc).symm
        have hpcnt : s.newPipe.2.pipeCnt = s.pipeCnt + 1 := rfl
        omega
      writer := by
        intro p hp
        have hpcnt : s.newPipe.2.pipeCnt = s.pipeCnt + 1 := rfl
        by_cases heq : p = s.pipeCnt
        · exact ⟨s.dfileCnt + 1, (hwriter _ _).mpr (Or.inr ⟨rfl, heq⟩)⟩
        · obtain ⟨w, hw⟩ := h.sound.writer p (by omega)
          exact ⟨w, (hwriter w p).mpr (Or.inl hw)⟩
      unique := by
        intro p v w hv hw
        rcases (hwriter v p).mp hv with hv | ⟨hv, hp⟩ <;>
          rcases (hwriter w p).mp hw with hw | ⟨hw, hp'⟩
        · exact h.sound.unique p v w hv hw
        · exact absurd hp' (hne v p hv)
        · exact absurd hp (hne w p hw)
        · rw [hv, hw]
      writeCnt := by
        intro p w hw
        rw [hpipes]
        rcases (hwriter w p).mp hw with hw | ⟨rfl, rfl⟩
        · rw [replaceAt_of_ne (hne w p hw), hstrong w hw.old]
          exact h.sound.writeCnt p w hw
        · have hone : s.newPipe.2.strong (s.dfileCnt + 1) = 1 := replaceAt_self
          rw [replaceAt_self, hone]
          rfl
      waiting := by
        intro p hp
        rw [hpipes] at hp ⊢
        by_cases heq : p = s.pipeCnt
        · rw [heq, replaceAt_self] at hp
          exact absurd rfl hp
        · rw [replaceAt_of_ne heq] at hp ⊢
          exact h.sound.waiting p hp }
  exact ⟨hsound, (hframe.newDFile r).newDFile f⟩

end Primitives

section Calls

variable {file fd self bufPos : ℕ} {s' : Descriptors} {opened : List (Option ℕ)} {q : Pipe}
  {buf : List UInt8}

theorem Within.getOpened (h : Within t s₀ s held) (fd : ℕ) :
    Within t s₀ (s.getOpened t fd).2 (optHeld (s.getOpened t fd).1 + held) :=
  h.cloneOpt (h.sound.strong_slot _ _)

theorem slot_cloneOpt (file : Option ℕ) (fd : ℕ) : (s.cloneOpt file).slot t fd = s.slot t fd := by
  cases file <;> rfl

theorem opened_cloneOpt (file : Option ℕ) : (s.cloneOpt file).opened = s.opened := by
  cases file <;> rfl

theorem Within.setOpened {file : Option ℕ} (h : Within t s₀ s (optHeld file + held)) (fd : ℕ) :
    Within t s₀ (s.setOpened t fd file).2 (optHeld (s.setOpened t fd file).1.join + held) := by
  rw [Descriptors.setOpened]
  split_ifs with hfd
  · have hcloned := h.cloneOpt (h.sound.strong_slot t fd)
    have hmoved := hcloned.held_eq (add_left_comm (optHeld (s.slot t fd)) (optHeld file) held)
    have hstored := hmoved.setSlot (show fd < _ by rwa [opened_cloneOpt])
    rw [slot_cloneOpt] at hstored
    exact hstored.dropOpt
  · exact h.dropOpt.held_eq (by simp)

theorem Within.clearOpened (h : Within t s₀ s held) (fd : ℕ) :
    Within t s₀ (s.clearOpened t fd).2 (optHeld (s.clearOpened t fd).1.join + held) :=
  (h.held_eq (show held = optHeld none + held by simp)).setOpened fd

theorem Within.allocFrom (h : Within t s₀ s ({file} + held)) (fdStart : ℕ) :
    Within t s₀ (s.allocFrom t file fdStart).2 held := by
  rw [Descriptors.allocFrom]
  cases hfree : s.freeSlot t fdStart with
  | none => exact h.dropArc
  | some i =>
    have hmem := List.mem_of_find?_eq_some hfree
    have hnone : s.slot t i = none := by simpa using List.find?_some hfree
    have hlt : i < (s.opened t).length := by
      rw [List.mem_range'_1] at hmem
      omega
    have hstored := (h.held_eq (show {file} + held = optHeld (some file) + held from rfl)).setSlot hlt
    rw [hnone] at hstored
    exact hstored.held_eq (by simp)

theorem Within.allocOpened (h : Within t s₀ s ({file} + held)) :
    Within t s₀ (s.allocOpened t file).2 held := h.allocFrom 0

theorem Within.allocOpenedBiggerThan (h : Within t s₀ s ({file} + held)) (fdStart : ℕ) :
    Within t s₀ (s.allocOpenedBiggerThan t file fdStart).2 held := by
  rw [Descriptors.allocOpenedBiggerThan]
  split_ifs
  · exact h.dropArc
  · exact h.allocFrom fdStart

theorem Within.sysPipe (h : Within t s₀ s held) : Within t s₀ (s.sysPipe t).2 held := by
  have hnew := h.newPipe
  rw [Descriptors.sysPipe]
  rcases hres : s.newPipe with ⟨⟨read, write⟩, s₁⟩
  rw [hres] at hnew
  have hread := (hnew.held_eq (add_left_comm {write} {read} held)).allocOpened
  dsimp only at hread ⊢
  rcases halloc : s₁.allocOpened t read with ⟨readfd, s₂⟩
  rw [halloc] at hread
  cases readfd with
  | none => exact hread.dropArc
  | some readfd =>
    have hwrite := Within.allocOpened hread
    dsimp only at hwrite ⊢
    rcases halloc' : s₂.allocOpened t write with ⟨writefd, s₃⟩
    rw [halloc'] at hwrite
    cases writefd with
    | none => exact (hwrite.clearOpened readfd).dropOpt
    | some writefd => exact hwrite

theorem Within.sysClose (h : Within t s₀ s held) (fd : ℕ) :
    Within t s₀ (s.sysClose t fd).2 held := by
  have hclear := h.clearOpened fd
  rw [Descriptors.sysClose]
  rcases hres : s.clearOpened t fd with ⟨old, s₁⟩
  rw [hres] at hclear
  rcases old with _ | _ | d
  · exact hclear.held_eq (by simp)
  · exact hclear.held_eq (by simp)
  · exact hclear.dropArc

theorem Within.doDup (h : Within t s₀ s held) (oldFd : ℕ) (newFd : Option ℕ) :
    Within t s₀ (s.doDup t oldFd newFd).2 held := by
  have hget := h.getOpened oldFd
  rw [Descriptors.doDup]
  rcases hres : s.getOpened t oldFd with ⟨file, s₁⟩
  rw [hres] at hget
  cases file with
  | none => exact hget.held_eq (by simp)
  | some f =>
    cases newFd with
    | none =>
      have halloc := Within.allocOpened hget
      dsimp only
      rcases hres' : s₁.allocOpened t f with ⟨fd, s₂⟩
      rw [hres'] at halloc
      cases fd <;> exact halloc
    | some newfd =>
      have hset := Within.setOpened hget newfd
      dsimp only at hset ⊢
      rcases hres' : s₁.setOpened t newfd (some f) with ⟨old, s₂⟩
      rw [hres'] at hset
      cases old with
      | none => exact hset.held_eq (by simp)
      | some old => exact hset.dropOpt

theorem Within.sysFcntl (h : Within t s₀ s held) {arg : ℕ} {cmd : FcntlCmd} {ret : ℤ}
    (hres : s.sysFcntl t fd cmd arg = .ok (ret, s')) :
    Within t s₀ s' held := by
  have hget := h.getOpened fd
  rw [Descriptors.sysFcntl] at hres
  rcases hopen : s.getOpened t fd with ⟨file, s₁⟩
  rw [hopen] at hget hres
  cases file with
  | none =>
    cases hres
    exact hget.held_eq (by simp)
  | some file =>
    have hget : Within t s₀ s₁ ({file} + held) := hget
    cases cmd with
    | dupfd =>
      have halloc := hget.allocOpenedBiggerThan arg
      dsimp only at hres
      rcases hbig : s₁.allocOpenedBiggerThan t file arg with ⟨newfd, s₂⟩
      rw [hbig] at halloc hres
      cases newfd <;> cases hres <;> exact halloc
    | getfd =>
      cases hres
      exact hget.dropArc
    | setfd =>
      cases hres
      exact (hget.setCloexecTo _ _).dropArc
    | dupfdCloexec =>
      have hclone := hget.cloneArc (hget.sound.strong_pos_of_held (d := file) (by simp))
      have halloc := hclone.allocOpenedBiggerThan arg
      dsimp only at hres
      rcases hbig : (s₁.cloneArc file).allocOpenedBiggerThan t file arg with ⟨newfd, s₂⟩
      rw [hbig] at halloc hres
      cases newfd with
      | none =>
        cases hres
        exact halloc.dropArc
      | some newfd =>
        cases hres
        exact (halloc.setCloexecTo _ _).dropArc
    | other => cases hres

theorem Within.openFound (h : Within t s₀ s held) (found : Option ℕ) (flags : OpenFlags) :
    Within t s₀ (s.openFound t found flags).2 held := by
  cases found with
  | none => exact h
  | some inode =>
    have hnew := h.newDFile (f := ⟨.classInode inode, flags, false⟩) (fun _ hc => by cases hc)
      (fun _ hc => by cases hc)
    have halloc := hnew.allocOpened
    rw [Descriptors.openFound]
    dsimp only [Descriptors.newDFile] at halloc ⊢
    generalize Descriptors.allocOpened _ t s.dfileCnt = r at halloc ⊢
    obtain ⟨fd, s₂⟩ := r
    cases fd <;> exact halloc

theorem Within.sysOpenat (h : Within t s₀ s held) (dirfd found : Option ℕ) (flags : OpenFlags) :
    Within t s₀ (s.sysOpenat t dirfd found flags).2 held := by
  cases dirfd with
  | none => exact h.openFound found flags
  | some fd =>
    have hget := h.getOpened fd
    rw [Descriptors.sysOpenat]
    dsimp only
    rcases hres : s.getOpened t fd with ⟨dir, s₁⟩
    rw [hres] at hget
    cases dir with
    | none => exact hget.held_eq (by simp)
    | some dir => exact (Within.openFound hget found flags).dropArc

theorem Within.openTerminal (h : Within t s₀ s held) (ttype : TerminalType) (flags : OpenFlags) :
    Within t s₀ (s.newDFile ⟨.classTerminal ttype, flags, false⟩).2 ({s.dfileCnt} + held) :=
  h.newDFile (fun _ hc => by cases hc) (fun _ hc => by cases hc)

theorem tableHeld_cons (file : Option ℕ) (opened : List (Option ℕ)) :
    tableHeld (file :: opened) = optHeld file + tableHeld opened := rfl

theorem tableHeld_replicate_none (n : ℕ) : tableHeld (List.replicate n none) = 0 := by
  induction n with
  | zero => rfl
  | succ n ih => rw [List.replicate_succ, tableHeld_cons, ih, optHeld_none, add_zero]

theorem Within.newStdFiles (h : Within t s₀ s held) :
    Within t s₀ s.newStdFiles.2 (tableHeld s.newStdFiles.1 + held) := by
  have hfiles := ((h.openTerminal .stdin .O_RDONLY).openTerminal .stdout .O_WRONLY).openTerminal
    .stderr .O_WRONLY
  refine hfiles.held_eq ?_
  have htable : tableHeld s.newStdFiles.1 =
      {s.dfileCnt} + ({s.dfileCnt + 1} + ({s.dfileCnt + 2} + 0)) := by
    rw [← tableHeld_replicate_none (maxOpened - 3)]
    rfl
  rw [htable]
  change {s.dfileCnt + 2} + ({s.dfileCnt + 1} + ({s.dfileCnt} + held)) = _
  abel

theorem Within.addTask (h : Within t s₀ s (tableHeld opened + held)) :
    Within t s₀ (s.addTask opened) held where
  sound :=
    { counted := by
        intro d
        have hd := h.sound.counted d
        have hsum : (s.addTask opened).entries d = s.entries d + opened.count (some d) := by
          have hcnt : (s.addTask opened).taskCnt = s.taskCnt + 1 := rfl
          rw [entries, hcnt, Finset.sum_range_succ]
          have hself : (s.addTask opened).opened s.taskCnt = opened := replaceAt_self
          rw [hself]
          congr 1
          refine Finset.sum_congr rfl fun u hu => ?_
          have hsame : (s.addTask opened).opened u = s.opened u :=
            replaceAt_of_ne (Finset.mem_range.mp hu).ne
          rw [hsame]
        have hstrong : (s.addTask opened).strong d = s.strong d := rfl
        rw [Multiset.count_add, count_tableHeld] at hd
        omega
      old := h.sound.old
      empty := by
        intro u hu
        have hu : s.taskCnt + 1 ≤ u := hu
        exact (replaceAt_of_ne (by omega)).trans (h.sound.empty u (by omega))
      owner := h.sound.owner
      writer := fun p hp => (h.sound.writer p hp).imp fun _ hw => ⟨hw.old, hw.cls, hw.writeable⟩
      unique := fun p v w hv hw => h.sound.unique p v w ⟨hv.old, hv.cls, hv.writeable⟩
        ⟨hw.old, hw.cls, hw.writeable⟩
      writeCnt := fun p w hw => h.sound.writeCnt p w ⟨hw.old, hw.cls, hw.writeable⟩
      waiting := h.sound.waiting }
  frame :=
    { h.frame with
      taskCnt := h.frame.taskCnt.trans (Nat.le_succ _)
      opened := fun u hu hne =>
        (replaceAt_of_ne (hu.trans_le h.frame.taskCnt).ne).trans (h.frame.opened u hu hne)
      exited := fun u hu =>
        (replaceAt_of_ne (hu.trans_le h.frame.taskCnt).ne).trans (h.frame.exited u hu)
      noExit := fun u hu => by
        have hu : replaceAt s.exited s.taskCnt false u = true := hu
        rw [replaceAt_apply] at hu
        split_ifs at hu
        exact h.frame.noExit u hu }

theorem Within.createUserTask (h : Within t s₀ s held) : Within t s₀ s.createUserTask held :=
  h.newStdFiles.addTask

theorem strong_cloneOpt_le (file : Option ℕ) (d : ℕ) : s.strong d ≤ (s.cloneOpt file).strong d := by
  cases file with
  | none => exact le_rfl
  | some e =>
    show s.strong d ≤ replaceAt s.strong e (s.strong e + 1) d
    rw [replaceAt_apply]
    split_ifs with h
    · rw [h]
      exact Nat.le_succ _
    · exact le_rfl

theorem Within.cloneAll (opened : List (Option ℕ)) (h : Within t s₀ s held)
    (hopened : ∀ d, some d ∈ opened → 0 < s.strong d) :
    Within t s₀ (opened.foldl Descriptors.cloneOpt s) (tableHeld opened + held) := by
  induction opened generalizing s held with
  | nil => exact h.held_eq (by simp [tableHeld])
  | cons file rest ih =>
    have hpos : ∀ d ∈ file, 0 < s.strong d := fun d hd => hopened d (by
      rw [Option.mem_def.mp hd]
      exact List.mem_cons_self ..)
    have hfile := h.cloneOpt hpos
    have hrest := ih hfile fun d hd =>
      (hopened d (List.mem_cons_of_mem _ hd)).trans_le (strong_cloneOpt_le file d)
    refine hrest.held_eq ?_
    rw [tableHeld_cons]
    abel

theorem Within.fork (h : Within t s₀ s held) (u : ℕ) : Within t s₀ (s.fork u) held :=
  (h.cloneAll (s.opened u) fun _ hd => h.sound.strong_pos_of_mem hd).addTask

theorem Within.dropAll (opened : List (Option ℕ)) (h : Within t s₀ s (tableHeld opened + held)) :
    Within t s₀ (opened.foldl Descriptors.dropOpt s) held := by
  induction opened generalizing s with
  | nil => exact h.held_eq (by simp [tableHeld])
  | cons file rest ih =>
    have hheld : Within t s₀ s (optHeld file + (tableHeld rest + held)) := by
      refine h.held_eq ?_
      rw [tableHeld_cons, add_assoc]
    exact ih hheld.dropOpt

theorem Within.replaceOpened (opened : List (Option ℕ)) (fd : ℕ) (h : Within t s₀ s held)
    (hopened : ∀ d, some d ∈ opened → d ∈ held) :
    Within t s₀ (replaceOpened t s fd opened) held := by
  induction opened generalizing s fd with
  | nil => exact h
  | cons file rest ih =>
    have hpos : ∀ d ∈ file, 0 < s.strong d := fun d hd => h.sound.strong_pos_of_held
      (hopened d (by
        rw [Option.mem_def.mp hd]
        exact List.mem_cons_self ..))
    have hclone := h.cloneOpt hpos
    exact ih (fd + 1) (hclone.setOpened fd).dropOpt
      fun d hd => hopened d (List.mem_cons_of_mem _ hd)

theorem mem_tableHeld (h : some d ∈ opened) : d ∈ tableHeld opened := by
  rw [← Multiset.count_pos, count_tableHeld]
  exact List.count_pos_iff.mpr h

theorem Within.sysExecve (h : Within t s₀ s held) : Within t s₀ (s.sysExecve t) held := by
  have hnew := h.newStdFiles
  rw [Descriptors.sysExecve]
  rcases hres : s.newStdFiles with ⟨opened, s₁⟩
  rw [hres] at hnew
  exact (hnew.replaceOpened opened 0 fun d hd =>
    Multiset.mem_add.mpr (Or.inl (mem_tableHeld hd))).dropAll opened

/-- A transfer leaves the writers of a pipe alone, and nobody waits for them in vain. -/
theorem readExact_pipe {r : ReadStretch} (h : q.readExact self buf bufPos = .ok r)
    (hq : q.waitRead ≠ [] → q.writeCnt ≠ 0) :
    r.pipe.writeCnt = q.writeCnt ∧ (r.pipe.waitRead ≠ [] → r.pipe.writeCnt ≠ 0) := by
  rcases le_or_gt bufPos buf.length with hpos | hover
  · rcases q.readExact_cases self buf hpos with ⟨n, ring, -, -, -, hr⟩ | ⟨-, ring, -, hr⟩ | ⟨hr, -⟩
    · rw [hr] at h
      cases h
      exact ⟨rfl, hq⟩
    · rw [hr] at h
      cases h
      unfold Pipe.starve
      split_ifs with hwriter
      · refine ⟨rfl, fun _ => ?_⟩
        simpa [Pipe.haveWriter, Pipe.sleepWaitRead] using hwriter
      · exact ⟨rfl, hq⟩
    · rw [hr] at h
      cases h
  · rw [Pipe.readExact_overrun hover] at h
    cases h

theorem writeExact_pipe {r : WriteStretch} (h : q.writeExact self buf bufPos = .ok r)
    (hq : q.waitRead ≠ [] → q.writeCnt ≠ 0) :
    r.pipe.writeCnt = q.writeCnt ∧ (r.pipe.waitRead ≠ [] → r.pipe.writeCnt ≠ 0) := by
  rcases le_or_gt bufPos buf.length with hpos | hover
  · rcases q.writeExact_cases self buf hpos with
      ⟨n, ring, -, -, -, hr⟩ | ⟨n, ring, -, -, -, hr⟩ | ⟨hr, -⟩
    · rw [hr] at h
      cases h
      exact ⟨rfl, fun hne => absurd rfl hne⟩
    · rw [hr] at h
      cases h
      exact ⟨rfl, hq⟩
    · rw [hr] at h
      cases h
  · rw [Pipe.writeExact_overrun hover] at h
    cases h

theorem Within.transfer (h : Within t s₀ s held) {allowed : OpenFlags → Bool}
    {stretch : Pipe → Checked Pipe}
    (hstretch : ∀ q r, stretch q = .ok r → (q.waitRead ≠ [] → q.writeCnt ≠ 0) →
      r.writeCnt = q.writeCnt ∧ (r.waitRead ≠ [] → r.writeCnt ≠ 0))
    (hres : s.transfer t fd allowed stretch = .ok s') : Within t s₀ s' held := by
  rw [Descriptors.transfer] at hres
  cases hslot : s.slot t fd with
  | none =>
    rw [hslot] at hres
    cases hres
    exact h
  | some d =>
    rw [hslot] at hres
    dsimp only at hres
    split_ifs at hres
    · cases hcls : (s.dfiles d).cls with
      | classPipe p =>
        rw [hcls] at hres
        obtain ⟨pipe, hpipe, hs'⟩ := Checked.bind_eq_ok.mp hres
        cases hs'
        obtain ⟨hcnt, hwait⟩ := hstretch _ _ hpipe (h.sound.waiting p)
        exact h.setPipe hcnt hwait
      | classInode i =>
        rw [hcls] at hres
        cases hres
        exact h
      | classTerminal ttype =>
        rw [hcls] at hres
        cases hres
        exact h
    · cases hres
      exact h

end Calls

end Zinix.Descriptors
