import Zinix.Fs.PipeStretch

/-!
# Who may be asleep on a pipe

A transfer wakes the other side when it returns but not when it falls asleep itself, so a
task stays asleep for nothing once a transfer moves a whole ring of bytes and still misses
some.
-/

namespace Zinix

namespace PipeSys

/-- Readers sleep on an empty ring with a writer left, writers on a full ring. -/
structure SleepOk (s : PipeSys) : Prop where
  readers : s.pipe.waitRead ≠ [] → s.pipe.buffer.status = .empty ∧ s.pipe.writeCnt ≠ 0
  writers : s.pipe.waitWrite ≠ [] → s.pipe.buffer.status = .full
  not_both : s.pipe.waitRead = [] ∨ s.pipe.waitWrite = []

/-- What is missing of a read fits into one ring, or no writer waits. -/
def ReadFits (p : Pipe) (needRead bufPos : ℕ) : Prop :=
  p.waitWrite = [] ∨ needRead ≤ bufPos + ringBufferSize

def WriteFits (p : Pipe) (needWrite bufPos : ℕ) : Prop :=
  p.waitRead = [] ∨ needWrite ≤ bufPos + ringBufferSize

/-- The condition on an action: a transfer that the other side waits for can be
completed with one ring of bytes, and the writer count does not wrap under
waiting readers. -/
def NoStrand (s : PipeSys) : PipeAct → Prop
  | .read _ buf => ReadFits s.pipe buf.length 0
  | .write _ buf => WriteFits s.pipe buf.length 0
  | .resume t =>
    match s.calls t with
    | some (.read _ buf bufPos _) => ReadFits s.pipe buf.length bufPos
    | some (.write buf bufPos) => WriteFits s.pipe buf.length bufPos
    | none => True
  | .incWrite => s.pipe.waitRead = [] ∨ s.pipe.writeCnt ≠ 255
  | .decWrite => True

def InBounds (s : PipeSys) : Prop :=
  ∀ t, (∀ orig buf bufPos got, s.calls t = some (.read orig buf bufPos got) →
      bufPos ≤ buf.length) ∧
    ∀ buf bufPos, s.calls t = some (.write buf bufPos) → bufPos ≤ buf.length

theorem init_inBounds : init.InBounds := by
  intro t
  simp [init]

theorem init_sleepOk : init.SleepOk where
  readers := by simp [init, Pipe.new]
  writers := by simp [init, Pipe.new]
  not_both := .inl rfl

theorem InBounds.update {s s' : PipeSys} (h : s.InBounds) {t : ℕ} {c : Option Call}
    (hcalls : s'.calls = Function.update s.calls t c)
    (hread : ∀ orig buf bufPos got, c = some (.read orig buf bufPos got) → bufPos ≤ buf.length)
    (hwrite : ∀ buf bufPos, c = some (.write buf bufPos) → bufPos ≤ buf.length) :
    s'.InBounds := by
  intro u
  rw [hcalls]
  by_cases hu : u = t
  · subst u
    rw [Function.update_self]
    exact ⟨hread, hwrite⟩
  · rw [Function.update_of_ne hu]
    exact h u

theorem status_empty_iff (p : Pipe) : p.buffer.status = .empty ↔ p.contents = [] := by
  rw [Pipe.contents, ← List.length_eq_zero_iff, PipeRingBuffer.length_contents,
    PipeRingBuffer.availableRead_eq_zero]

theorem status_full_iff (p : Pipe) :
    p.buffer.status = .full ↔ p.contents.length = ringBufferSize := by
  rw [Pipe.contents, PipeRingBuffer.length_contents, PipeRingBuffer.availableRead_eq_size]

variable {s s' : PipeSys}

/-- The pipe and the call after a read stretch: it returned after moving the rest,
or it drained the ring. -/
theorem stretchRead_ok {t : ℕ} {orig buf : List UInt8} {bufPos : ℕ} {got : List UInt8}
    (hpos : bufPos ≤ buf.length) (h : s.stretchRead t orig buf bufPos got = .ok s') :
    (∃ n, n ≤ s.pipe.contents.length ∧ bufPos + n = buf.length ∧
      s'.pipe.contents = s.pipe.contents.drop n ∧ s'.pipe.waitWrite = [] ∧
      s'.pipe.waitRead = s.pipe.waitRead ∧ s'.pipe.writeCnt = s.pipe.writeCnt ∧
      s'.calls = Function.update s.calls t none) ∨
    (bufPos + s.pipe.contents.length < buf.length ∧ s'.pipe.contents = [] ∧
      s'.pipe.waitWrite = s.pipe.waitWrite ∧ s'.pipe.writeCnt = s.pipe.writeCnt ∧
      ((s.pipe.writeCnt ≠ 0 ∧ s'.pipe.waitRead = s.pipe.waitRead ++ [t] ∧
        ∃ buf' got', bufPos + s.pipe.contents.length ≤ buf'.length ∧ s'.calls =
          Function.update s.calls t
            (some (.read orig buf' (bufPos + s.pipe.contents.length) got'))) ∨
      (s.pipe.writeCnt = 0 ∧ s'.pipe.waitRead = s.pipe.waitRead ∧
        s'.calls = Function.update s.calls t none))) := by
  rcases Pipe.readExact_cases t s.pipe buf hpos with
    ⟨n, ring, hn, hend, hring, heq⟩ | ⟨hless, ring, hring, heq⟩ | ⟨heq, _, _, _⟩
  · left
    rw [stretchRead, heq] at h
    cases h
    exact ⟨n, hn, hend, hring, rfl, rfl, rfl, rfl⟩
  · right
    rw [stretchRead, heq] at h
    by_cases hwriter : s.pipe.haveWriter = true
    · have hkeep : { s.pipe with buffer := ring }.haveWriter = true := hwriter
      simp only [Checked.ok_bind, Pipe.starve, Pipe.starveOutcome, hwriter, hkeep, if_true] at h
      cases h
      refine ⟨hless, hring, rfl, rfl, .inl ⟨?_, rfl, _, _, ?_, rfl⟩⟩
      · simpa [Pipe.haveWriter] using hwriter
      · rw [List.length_append, List.length_drop]
        omega
    · have hkeep : ¬{ s.pipe with buffer := ring }.haveWriter = true := hwriter
      simp only [Checked.ok_bind, Pipe.starve, Pipe.starveOutcome, hwriter, hkeep] at h
      cases h
      refine ⟨hless, hring, rfl, rfl, .inr ⟨?_, rfl, rfl⟩⟩
      simpa [Pipe.haveWriter] using hwriter
  · rw [stretchRead, heq] at h
    cases h

theorem stretchWrite_ok {t : ℕ} {buf : List UInt8} {bufPos : ℕ}
    (hpos : bufPos ≤ buf.length) (h : s.stretchWrite t buf bufPos = .ok s') :
    (∃ n, s.pipe.contents.length + n ≤ ringBufferSize ∧ bufPos + n = buf.length ∧
      s'.pipe.contents = s.pipe.contents ++ buf.take n ∧ s'.pipe.waitRead = [] ∧
      s'.pipe.waitWrite = s.pipe.waitWrite ∧ s'.pipe.writeCnt = s.pipe.writeCnt ∧
      s'.calls = Function.update s.calls t none) ∨
    (∃ n, s.pipe.contents.length + n = ringBufferSize ∧ bufPos + n < buf.length ∧
      s'.pipe.contents = s.pipe.contents ++ buf.take n ∧ s'.pipe.waitRead = s.pipe.waitRead ∧
      s'.pipe.waitWrite = s.pipe.waitWrite ++ [t] ∧ s'.pipe.writeCnt = s.pipe.writeCnt ∧
      s'.calls = Function.update s.calls t (some (.write buf (bufPos + n)))) := by
  rcases Pipe.writeExact_cases t s.pipe buf hpos with
    ⟨n, ring, hn, hend, hring, heq⟩ | ⟨n, ring, hn, hless, hring, heq⟩ | ⟨heq, _, _, _⟩
  · left
    rw [stretchWrite, heq] at h
    cases h
    exact ⟨n, hn, hend, hring, rfl, rfl, rfl, rfl⟩
  · right
    rw [stretchWrite, heq] at h
    cases h
    exact ⟨n, hn, hless, hring, rfl, rfl, rfl, rfl⟩
  · rw [stretchWrite, heq] at h
    cases h

theorem stretchRead_inBounds (hb : s.InBounds) {t : ℕ} {orig buf : List UInt8} {bufPos : ℕ}
    {got : List UInt8} (hpos : bufPos ≤ buf.length)
    (h : s.stretchRead t orig buf bufPos got = .ok s') : s'.InBounds := by
  rcases stretchRead_ok hpos h with
    ⟨n, _, _, _, _, _, _, hcalls⟩ | ⟨_, _, _, _, ⟨_, _, buf', got', hle, hcalls⟩ | ⟨_, _, hcalls⟩⟩
  · exact hb.update hcalls (by simp) (by simp)
  · refine hb.update hcalls ?_ (by simp)
    intro orig₁ buf₁ bufPos₁ got₁ hc
    simp only [Option.some.injEq, Call.read.injEq] at hc
    obtain ⟨_, rfl, rfl, _⟩ := hc
    exact hle
  · exact hb.update hcalls (by simp) (by simp)

theorem stretchWrite_inBounds (hb : s.InBounds) {t : ℕ} {buf : List UInt8} {bufPos : ℕ}
    (hpos : bufPos ≤ buf.length) (h : s.stretchWrite t buf bufPos = .ok s') : s'.InBounds := by
  rcases stretchWrite_ok hpos h with
    ⟨n, _, _, _, _, _, _, hcalls⟩ | ⟨n, _, hless, _, _, _, _, hcalls⟩
  · exact hb.update hcalls (by simp) (by simp)
  · refine hb.update hcalls (by simp) ?_
    intro buf₁ bufPos₁ hc
    simp only [Option.some.injEq, Call.write.injEq] at hc
    obtain ⟨rfl, rfl⟩ := hc
    exact hless.le

theorem sleepOk_iff_contents : s.SleepOk ↔
    (s.pipe.waitRead ≠ [] → s.pipe.contents = [] ∧ s.pipe.writeCnt ≠ 0) ∧
      (s.pipe.waitWrite ≠ [] → s.pipe.contents.length = ringBufferSize) := by
  constructor
  · intro h
    refine ⟨fun hr => ?_, fun hw => (status_full_iff s.pipe).mp (h.writers hw)⟩
    obtain ⟨hempty, hcnt⟩ := h.readers hr
    exact ⟨(status_empty_iff s.pipe).mp hempty, hcnt⟩
  · rintro ⟨hr, hw⟩
    refine ⟨fun h => ?_, fun h => (status_full_iff s.pipe).mpr (hw h), ?_⟩
    · obtain ⟨hnil, hcnt⟩ := hr h
      exact ⟨(status_empty_iff s.pipe).mpr hnil, hcnt⟩
    · by_contra hboth
      push Not at hboth
      have hlen := hw hboth.2
      rw [(hr hboth.1).1] at hlen
      cases hlen

/-- A read stretch from a good state leads to a good state exactly when it cannot
leave a waiting writer behind. -/
theorem stretchRead_sleepOk_iff (hok : s.SleepOk) {t : ℕ} {orig buf : List UInt8} {bufPos : ℕ}
    {got : List UInt8} (hpos : bufPos ≤ buf.length)
    (h : s.stretchRead t orig buf bufPos got = .ok s') :
    s'.SleepOk ↔ ReadFits s.pipe buf.length bufPos := by
  have hcap : s.pipe.contents.length ≤ ringBufferSize := s.pipe.buffer.length_contents_le
  rw [sleepOk_iff_contents] at hok ⊢
  rcases stretchRead_ok hpos h with
    ⟨n, hn, hend, hcon, hww, hwr, hcnt, _⟩ | ⟨hless, hcon, hww, hcnt, hwait⟩
  · have hfits : ReadFits s.pipe buf.length bufPos := .inr (by omega)
    refine iff_of_true ⟨?_, by simp [hww]⟩ hfits
    rw [hwr, hcon, hcnt]
    intro hne
    obtain ⟨hnil, hcnt'⟩ := hok.1 hne
    exact ⟨by rw [hnil, List.drop_nil], hcnt'⟩
  · rw [hcon, hww, hcnt]
    have hfits : ReadFits s.pipe buf.length bufPos ↔ s.pipe.waitWrite = [] := by
      constructor
      · rintro (hnil | hle)
        · exact hnil
        · by_contra hne
          have := hok.2 hne
          omega
      · exact .inl
    rw [hfits]
    constructor
    · rintro ⟨_, hw⟩
      by_contra hne
      cases hw hne
    · intro hnil
      refine ⟨fun hne => ⟨rfl, ?_⟩, fun hne => absurd hnil hne⟩
      rcases hwait with ⟨hcnt', _⟩ | ⟨_, hwr, _⟩
      · exact hcnt'
      · exact (hok.1 (hwr ▸ hne)).2

theorem stretchWrite_sleepOk_iff (hok : s.SleepOk) {t : ℕ} {buf : List UInt8} {bufPos : ℕ}
    (hpos : bufPos ≤ buf.length) (h : s.stretchWrite t buf bufPos = .ok s') :
    s'.SleepOk ↔ WriteFits s.pipe buf.length bufPos := by
  rw [sleepOk_iff_contents] at hok ⊢
  rcases stretchWrite_ok hpos h with
    ⟨n, hn, hend, hcon, hwr, hww, hcnt, _⟩ | ⟨n, hn, hless, hcon, hwr, hww, hcnt, _⟩
  · have hfits : WriteFits s.pipe buf.length bufPos := .inr (by omega)
    refine iff_of_true ⟨by simp [hwr], ?_⟩ hfits
    rw [hww, hcon]
    intro hne
    have hfull := hok.2 hne
    obtain rfl : n = 0 := by omega
    simpa using hfull
  · have hlen : s'.pipe.contents.length = ringBufferSize := by
      rw [hcon, List.length_append, List.length_take]
      omega
    have hfits : WriteFits s.pipe buf.length bufPos ↔ s.pipe.waitRead = [] := by
      constructor
      · rintro (hnil | hle)
        · exact hnil
        · by_contra hne
          rw [(hok.1 hne).1, List.length_nil] at hn
          omega
      · exact .inl
    rw [hfits, hwr]
    constructor
    · rintro ⟨hr, _⟩
      by_contra hne
      rw [(hr hne).1] at hlen
      cases hlen
    · intro hnil
      exact ⟨fun hne => absurd hnil hne, fun _ => hlen⟩

theorem incWrite_sleepOk_iff (hok : s.SleepOk) :
    SleepOk { s with pipe := s.pipe.incWrite } ↔
      (s.pipe.waitRead = [] ∨ s.pipe.writeCnt ≠ 255) := by
  have hwrap : s.pipe.writeCnt + 1 ≠ 0 ↔ s.pipe.writeCnt ≠ 255 := by grind
  rw [sleepOk_iff_contents] at hok ⊢
  change (s.pipe.waitRead ≠ [] → s.pipe.contents = [] ∧ s.pipe.writeCnt + 1 ≠ 0) ∧
    (s.pipe.waitWrite ≠ [] → s.pipe.contents.length = ringBufferSize) ↔ _
  rw [hwrap]
  constructor
  · rintro ⟨hr, _⟩
    by_cases hnil : s.pipe.waitRead = []
    · exact .inl hnil
    · exact .inr (hr hnil).2
  · rintro (hnil | hcnt)
    · exact ⟨fun hne => absurd hnil hne, hok.2⟩
    · exact ⟨fun hne => ⟨(hok.1 hne).1, hcnt⟩, hok.2⟩

theorem decWrite_sleepOk (hok : s.SleepOk) : SleepOk { s with pipe := s.pipe.decWrite } := by
  rw [sleepOk_iff_contents] at hok ⊢
  unfold Pipe.decWrite
  split_ifs with hone
  · exact ⟨by simp [Pipe.wakeUpRead], hok.2⟩
  · refine ⟨fun hne => ⟨(hok.1 hne).1, ?_⟩, hok.2⟩
    change s.pipe.writeCnt - 1 ≠ 0
    intro hzero
    exact hone (by grind)

theorem step_inBounds {a : PipeAct} (hb : s.InBounds) (h : Step s a s') : s'.InBounds := by
  obtain ⟨_, hexec⟩ := h
  cases a with
  | read t buf => exact stretchRead_inBounds hb (Nat.zero_le _) hexec
  | write t buf =>
    have hb' : InBounds { s with sent := s.sent ++ buf } := hb
    exact stretchWrite_inBounds hb' (Nat.zero_le _) hexec
  | resume t =>
    cases hcall : s.calls t with
    | none =>
      simp only [exec, hcall, Checked.pure_eq, Except.ok.injEq] at hexec
      exact hexec ▸ hb
    | some call =>
      cases call with
      | read orig buf bufPos got =>
        simp only [exec, hcall] at hexec
        exact stretchRead_inBounds hb ((hb t).1 orig buf bufPos got hcall) hexec
      | write buf bufPos =>
        simp only [exec, hcall] at hexec
        exact stretchWrite_inBounds hb ((hb t).2 buf bufPos hcall) hexec
  | incWrite => cases hexec; exact hb
  | decWrite => cases hexec; exact hb

theorem step_sleepOk_iff {a : PipeAct} (hb : s.InBounds) (hok : s.SleepOk) (h : Step s a s') :
    s'.SleepOk ↔ s.NoStrand a := by
  obtain ⟨hen, hexec⟩ := h
  cases a with
  | read t buf => exact stretchRead_sleepOk_iff hok (Nat.zero_le _) hexec
  | write t buf =>
    have hok' : SleepOk { s with sent := s.sent ++ buf } :=
      ⟨hok.readers, hok.writers, hok.not_both⟩
    exact stretchWrite_sleepOk_iff hok' (Nat.zero_le _) hexec
  | resume t =>
    cases hcall : s.calls t with
    | none => exact absurd hcall hen.1
    | some call =>
      cases call with
      | read orig buf bufPos got =>
        simp only [exec, hcall] at hexec
        simp only [NoStrand, hcall]
        exact stretchRead_sleepOk_iff hok ((hb t).1 orig buf bufPos got hcall) hexec
      | write buf bufPos =>
        simp only [exec, hcall] at hexec
        simp only [NoStrand, hcall]
        exact stretchWrite_sleepOk_iff hok ((hb t).2 buf bufPos hcall) hexec
  | incWrite => cases hexec; exact incWrite_sleepOk_iff hok
  | decWrite => cases hexec; exact iff_of_true (decWrite_sleepOk hok) trivial

/-- All states of a run are good exactly when none of its steps can leave a
waiting task behind. -/
theorem sleepOk_iff_noStrand {r : List (PipeAct × PipeSys)} (hrun : Trace.IsRun Step init r) :
    (∀ s ∈ Trace.states init r, SleepOk s) ↔ ∀ x ∈ Trace.steps init r, NoStrand x.1 x.2 :=
  Trace.all_states_iff_all_steps (fun s => InBounds s ∧ SleepOk s) SleepOk NoStrand
    (fun _ _ _ hs hC h => ⟨step_inBounds hs.1 h, (step_sleepOk_iff hs.1 hs.2 h).mpr hC⟩)
    (fun _ _ _ hs h => step_sleepOk_iff hs.1 hs.2 h) ⟨init_inBounds, init_sleepOk⟩ init_sleepOk hrun

/-- A reader asleep on a pipe with one writer, woken by a short write. -/
theorem sleepOk_short_write :
    ∃ r, Trace.IsRun Step init r ∧ r.length = 3 ∧ (∃ s ∈ Trace.states init r, s.pipe.waitRead ≠ []) ∧
      ∀ s ∈ Trace.states init r, SleepOk s := by
  obtain ⟨s₁, h₁, hv₁⟩ := step_incWrite (s := init) rfl
  obtain ⟨s₂, h₂, hv₂⟩ := step_read_sleeps 0 [0, 0] hv₁ rfl rfl (by decide) (by decide)
  obtain ⟨s₃, h₃, _⟩ := step_write_fits 1 [7, 8] hv₂ rfl (by decide)
  have hrun : Trace.IsRun Step init
      [(.incWrite, s₁), (.read 0 [0, 0], s₂), (.write 1 [7, 8], s₃)] := ⟨h₁, h₂, h₃, trivial⟩
  have hwait : s₂.pipe.waitRead ≠ [] := by
    change s₂.view.waitRead ≠ []
    rw [hv₂]
    decide
  refine ⟨_, hrun, rfl, ⟨s₂, by simp [Trace.states], hwait⟩,
    (sleepOk_iff_noStrand hrun).mpr ?_⟩
  have hw₁ : s₁.pipe.waitWrite = [] := by
    change s₁.view.waitWrite = []
    rw [hv₁]
    rfl
  simp [Trace.steps, NoStrand, ReadFits, WriteFits, ringBufferSize, hw₁, init, Pipe.new]

/-- A writer with 1025 bytes fills the ring and sleeps; a reader with 2000 bytes of
room drains it and sleeps as well. -/
theorem not_sleepOk_both_asleep :
    ∃ r, Trace.IsRun Step init r ∧ ∃ s ∈ Trace.states init r,
      s.pipe.waitRead = [1] ∧ s.pipe.waitWrite = [0] ∧ ¬SleepOk s := by
  obtain ⟨s₁, h₁, hv₁⟩ := step_incWrite (s := init) rfl
  obtain ⟨n, s₂, hn, h₂, hv₂⟩ := step_write_fills 0 (List.replicate 1025 1) hv₁ rfl (by
    rw [List.length_replicate]
    decide)
  change 0 + n = 1024 at hn
  obtain ⟨s₃, h₃, hv₃⟩ := step_read_drains 1 (List.replicate 2000 0) hv₂ rfl
    (show (1 : UInt8) ≠ 0 by decide) (by
      have hnil : init.view.contents.length = 0 := rfl
      simp only [List.length_append, List.length_take, List.length_replicate]
      omega)
  have hread : s₃.pipe.waitRead = [1] := by
    change s₃.view.waitRead = [1]
    rw [hv₃]
    rfl
  have hwrite : s₃.pipe.waitWrite = [0] := by
    change s₃.view.waitWrite = [0]
    rw [hv₃]
    rfl
  refine ⟨[(.incWrite, s₁), (.write 0 _, s₂), (.read 1 _, s₃)], ⟨h₁, h₂, h₃, trivial⟩, s₃,
    Trace.final_mem_states init _, hread, hwrite, ?_⟩
  intro hok
  rcases hok.not_both with h | h
  · rw [hread] at h
    cases h
  · rw [hwrite] at h
    cases h

end PipeSys

end Zinix
