import Zinix.Fs.PipeStretch

/-!
# The byte stream through a pipe

A pass that continues a transfer starts again at offset 0 of the caller's buffer, so a
transfer that is cut by a sleep and continued breaks the stream.
-/

namespace Zinix

namespace PipeSys

variable {t bufPos : ℕ} {orig buf got : List UInt8} {p : Pipe}

/-- No task is inside a `writeExact`. -/
def NoWriter (s : PipeSys) : Prop := ∀ t buf bufPos, s.calls t ≠ some (.write buf bufPos)

def OneWriter (s : PipeSys) : PipeAct → Prop
  | .write _ _ => s.NoWriter
  | _ => True

/-- A stretch that continues a call with bytes already moved finds nothing to move. -/
def FreshPass (s : PipeSys) : PipeAct → Prop
  | .resume t =>
    match s.calls t with
    | some (.read _ _ bufPos _) => bufPos = 0 ∨ s.pipe.buffer.status = .empty
    | some (.write _ bufPos) => bufPos = 0 ∨ s.pipe.buffer.status = .full
    | none => True
  | _ => True

/-- Bytes come out in the order in which they were passed to `writeExact`, those
of a read stand at the front of its buffer and the rest of the buffer is
untouched, a read returns short only after the last writer has gone, and no
assertion fails. -/
structure StreamOk (s : PipeSys) : Prop where
  in_order : s.taken <+: s.sent
  pending : ∀ t orig buf bufPos got, s.calls t = some (.read orig buf bufPos got) →
    got.length = bufPos ∧ buf = got ++ orig.drop bufPos
  returned : ∀ r ∈ s.returns, r.got.length = r.n ∧ r.buf = r.got ++ r.orig.drop r.n ∧
    (r.n = r.orig.length ∨ r.closed = true)
  no_assert : ∀ a, s.Enabled a → s.OneWriter a → s.FreshPass a → ∃ s', s.exec a = .ok s'

/-- The invariant behind `StreamOk`: what was passed to `writeExact` is what was
taken, then the ring, then `tail`, the part a pending write has not moved yet. -/
structure StreamInv (s : PipeSys) (tail : List UInt8) : Prop where
  sent_eq : s.sent = s.taken ++ s.pipe.contents ++ tail
  tail_eq : ∀ t buf bufPos, s.calls t = some (.write buf bufPos) →
    tail = buf.drop bufPos ∧ bufPos < buf.length
  tail_nil : s.NoWriter → tail = []
  one_writer : ∀ t t' buf buf' bufPos bufPos', s.calls t = some (.write buf bufPos) →
    s.calls t' = some (.write buf' bufPos') → t = t'
  pending : ∀ t orig buf bufPos got, s.calls t = some (.read orig buf bufPos got) →
    got.length = bufPos ∧ buf = got ++ orig.drop bufPos ∧ bufPos < buf.length
  returned : ∀ r ∈ s.returns, r.got.length = r.n ∧ r.buf = r.got ++ r.orig.drop r.n ∧
    (r.n = r.orig.length ∨ r.closed = true)

theorem init_streamInv : StreamInv init [] where
  sent_eq := rfl
  tail_eq := by simp [init]
  tail_nil := fun _ => rfl
  one_writer := by simp [init]
  pending := by simp [init]
  returned := by simp [init]

variable {s : PipeSys} {tail : List UInt8}

/-- Calls of other tasks are not touched when `t` ends its stretch as a reader. -/
theorem StreamInv.update_read (h : StreamInv s tail)
    (ht : ∀ buf bufPos, s.calls t ≠ some (.write buf bufPos)) {s' : PipeSys} {c : Option Call}
    (hcalls : s'.calls = Function.update s.calls t c)
    (hcall : ∀ buf bufPos, c ≠ some (.write buf bufPos))
    (hread : ∀ orig buf bufPos got, c = some (.read orig buf bufPos got) →
      got.length = bufPos ∧ buf = got ++ orig.drop bufPos ∧ bufPos < buf.length)
    (hsent : s'.sent = s'.taken ++ s'.pipe.contents ++ tail)
    (hreturned : ∀ r ∈ s'.returns, r.got.length = r.n ∧ r.buf = r.got ++ r.orig.drop r.n ∧
      (r.n = r.orig.length ∨ r.closed = true)) : StreamInv s' tail := by
  have hwrite : ∀ u buf bufPos, s'.calls u = some (.write buf bufPos) ↔
      s.calls u = some (.write buf bufPos) := by
    intro u buf bufPos
    rw [hcalls]
    by_cases hu : u = t
    · subst u
      rw [Function.update_self]
      exact ⟨fun h => absurd h (hcall _ _), fun h => absurd h (ht _ _)⟩
    · rw [Function.update_of_ne hu]
  constructor
  · exact hsent
  · intro u buf bufPos hu
    exact h.tail_eq u buf bufPos ((hwrite u buf bufPos).mp hu)
  · intro hno
    exact h.tail_nil (fun u buf bufPos hu => hno u buf bufPos ((hwrite u buf bufPos).mpr hu))
  · intro u u' buf buf' bufPos bufPos' hu hu'
    exact h.one_writer u u' buf buf' bufPos bufPos' ((hwrite ..).mp hu) ((hwrite ..).mp hu')
  · intro u orig buf bufPos got hu
    rw [hcalls] at hu
    by_cases hut : u = t
    · subst u
      rw [Function.update_self] at hu
      exact hread orig buf bufPos got hu
    · rw [Function.update_of_ne hut] at hu
      exact h.pending u orig buf bufPos got hu
  · exact hreturned

theorem starve_contents (p : Pipe) (ring : PipeRingBuffer) (t : ℕ) :
    ({ p with buffer := ring }.starve t).contents = ring.contents := by
  unfold Pipe.starve
  split_ifs <;> rfl

/-- Storing at offset 0 is storing at `bufPos` if nothing was moved before or
there is nothing to store. -/
theorem stored_in_place {c : List UInt8} {n : ℕ} (hgot : got.length = bufPos)
    (hbuf : buf = got ++ orig.drop bufPos) (hfresh : bufPos = 0 ∨ c = []) (hn : n ≤ c.length) :
    (got ++ c.take n).length = bufPos + n ∧
      c.take n ++ buf.drop n = (got ++ c.take n) ++ orig.drop (bufPos + n) := by
  rcases hfresh with rfl | rfl
  · rw [List.length_eq_zero_iff] at hgot
    subst hgot
    simp only [List.nil_append, List.drop_zero] at hbuf
    subst hbuf
    simp [hn]
  · obtain rfl : n = 0 := by simpa using hn
    simp [hgot, hbuf]

/-- A read stretch that starts with nothing moved, or on an empty ring, keeps the
invariant and does not fail its assertion. -/
theorem stretchRead_streamInv (h : StreamInv s tail)
    (ht : ∀ buf bufPos, s.calls t ≠ some (.write buf bufPos)) (hgot : got.length = bufPos)
    (hbuf : buf = got ++ orig.drop bufPos) (hpos : bufPos ≤ orig.length)
    (hfresh : bufPos = 0 ∨ s.pipe.contents = []) :
    ∃ s', s.stretchRead t orig buf bufPos got = .ok s' ∧ StreamInv s' tail := by
  have hlen : buf.length = orig.length := by
    rw [hbuf, List.length_append, List.length_drop, hgot]
    omega
  rcases Pipe.readExact_cases t s.pipe buf (hlen ▸ hpos) with
    ⟨n, ring, hn, hend, hring, heq⟩ | ⟨hless, ring, hring, heq⟩ | ⟨_, hpos', hne, _⟩
  · obtain ⟨hlength, hplace⟩ := stored_in_place hgot hbuf hfresh hn
    have hsent : s.sent = s.taken ++ s.pipe.contents.take n ++ ring.contents ++ tail := by
      rw [hring, List.append_assoc s.taken, List.take_append_drop]
      exact h.sent_eq
    refine ⟨_, by rw [stretchRead, heq]; rfl, ?_⟩
    refine h.update_read ht (c := none) rfl (by simp) (by simp) hsent ?_
    intro r hr
    rcases List.mem_append.mp hr with hr | hr
    · exact h.returned r hr
    · rw [List.mem_singleton] at hr
      subst hr
      exact ⟨hlength, hplace, .inl (hend.trans hlen)⟩
  · obtain ⟨hlength, hplace⟩ := stored_in_place hgot hbuf hfresh le_rfl
    rw [List.take_length] at hlength hplace
    have hsent : s.sent = s.taken ++ s.pipe.contents ++
        ({ s.pipe with buffer := ring }.starve t).contents ++ tail := by
      rw [starve_contents, hring, List.append_nil]
      exact h.sent_eq
    by_cases hwriter : s.pipe.haveWriter = true
    · refine ⟨_, by
        rw [stretchRead, heq, Pipe.starveOutcome, if_pos hwriter]
        rfl, ?_⟩
      refine h.update_read ht (c := some (.read orig _ _ _)) rfl (by simp) ?_ hsent h.returned
      intro orig' buf' bufPos' got' hcall
      simp only [Option.some.injEq, Call.read.injEq] at hcall
      obtain ⟨rfl, rfl, rfl, rfl⟩ := hcall
      refine ⟨hlength, hplace, ?_⟩
      rw [List.length_append, List.length_drop]
      omega
    · refine ⟨_, by
        rw [stretchRead, heq, Pipe.starveOutcome, if_neg hwriter]
        rfl, ?_⟩
      refine h.update_read ht (c := none) rfl (by simp) (by simp) hsent ?_
      intro r hr
      rcases List.mem_append.mp hr with hr | hr
      · exact h.returned r hr
      · rw [List.mem_singleton] at hr
        subst hr
        refine ⟨hlength, hplace, .inr ?_⟩
        simp only [Pipe.starve, Pipe.haveWriter] at hwriter ⊢
        simp [hwriter]
  · rcases hfresh with hzero | hnil
    · omega
    · exact absurd hnil hne

theorem stretchWrite_streamInv (hothers : ∀ u, u ≠ t → ∀ b q, s.calls u ≠ some (.write b q))
    (hsent : s.sent = s.taken ++ s.pipe.contents ++ buf.drop bufPos)
    (hpending : ∀ u, u ≠ t → ∀ orig b q got, s.calls u = some (.read orig b q got) →
      got.length = q ∧ b = got ++ orig.drop q ∧ q < b.length)
    (hreturned : ∀ r ∈ s.returns, r.got.length = r.n ∧ r.buf = r.got ++ r.orig.drop r.n ∧
      (r.n = r.orig.length ∨ r.closed = true)) (hpos : bufPos ≤ buf.length)
    (hfresh : bufPos = 0 ∨ s.pipe.contents.length = ringBufferSize) :
    ∃ s' tail, s.stretchWrite t buf bufPos = .ok s' ∧ StreamInv s' tail := by
  -- the bytes moved are the next ones of the buffer: nothing was moved before, or nothing is now
  have hmoved : ∀ n, s.pipe.contents.length + n ≤ ringBufferSize →
      s.sent = s.taken ++ (s.pipe.contents ++ buf.take n) ++ buf.drop (bufPos + n) := by
    intro n hn
    rcases hfresh with rfl | hfull
    · rw [hsent]
      simp
    · obtain rfl : n = 0 := by omega
      rw [hsent]
      simp
  have hframe : ∀ {pipe : Pipe} {c : Option Call} {tail : List UInt8},
      s.sent = s.taken ++ pipe.contents ++ tail →
      (∀ b q, c = some (.write b q) → tail = b.drop q ∧ q < b.length) →
      (c = none → tail = []) → (∀ orig b q got, c ≠ some (.read orig b q got)) →
      StreamInv { s with pipe := pipe, calls := Function.update s.calls t c } tail := by
    intro pipe c tail hs hw hn hr
    have honly : ∀ u b q, Function.update s.calls t c u = some (.write b q) →
        u = t ∧ c = some (.write b q) := by
      intro u b q hu
      by_cases hut : u = t
      · subst u
        rw [Function.update_self] at hu
        exact ⟨rfl, hu⟩
      · rw [Function.update_of_ne hut] at hu
        exact absurd hu (hothers u hut b q)
    constructor
    · exact hs
    · intro u b q hu
      exact hw b q (honly u b q hu).2
    · intro hno
      cases c with
      | none => exact hn rfl
      | some call =>
        cases call with
        | read orig b q got => exact absurd rfl (hr orig b q got)
        | write b q => exact absurd (Function.update_self ..) (hno t b q)
    · intro u u' b b' q q' hu hu'
      rw [(honly u b q hu).1, (honly u' b' q' hu').1]
    · intro u orig b q got hu
      change Function.update s.calls t c u = _ at hu
      by_cases hut : u = t
      · subst u
        rw [Function.update_self] at hu
        exact absurd hu (hr orig b q got)
      · rw [Function.update_of_ne hut] at hu
        exact hpending u hut orig b q got hu
    · exact hreturned
  rcases Pipe.writeExact_cases t s.pipe buf hpos with
    ⟨n, ring, hn, hend, hring, heq⟩ | ⟨n, ring, hn, hless, hring, heq⟩ | ⟨_, hpos', hne, _⟩
  · refine ⟨_, [], by rw [stretchWrite, heq]; rfl, ?_⟩
    refine hframe ?_ (by simp) (fun _ => rfl) (by simp)
    have := hmoved n hn
    rwa [hend, List.drop_length, ← hring] at this
  · refine ⟨_, buf.drop (bufPos + n), by rw [stretchWrite, heq]; rfl, ?_⟩
    refine hframe ?_ ?_ (by simp) (by simp)
    · have := hmoved n hn.le
      rwa [← hring] at this
    · intro b q hcall
      simp only [Option.some.injEq, Call.write.injEq] at hcall
      obtain ⟨rfl, rfl⟩ := hcall
      exact ⟨rfl, hless⟩
  · rcases hfresh with hzero | hfull
    · omega
    · exact absurd hfull hne

theorem contents_eq_nil_of_status (h : p.buffer.status = .empty) : p.contents = [] := by
  rw [Pipe.contents, ← List.length_eq_zero_iff, PipeRingBuffer.length_contents]
  exact p.buffer.availableRead_empty h

theorem contents_full_of_status (h : p.buffer.status = .full) :
    p.contents.length = ringBufferSize := by
  rw [Pipe.contents, PipeRingBuffer.length_contents]
  exact p.buffer.availableRead_full h

/-- One enabled action under the two conditions does not panic and keeps the
invariant. -/
theorem exec_streamInv (h : StreamInv s tail) (a : PipeAct) (hen : s.Enabled a)
    (hone : s.OneWriter a) (hfresh : s.FreshPass a) :
    ∃ s' tail', s.exec a = .ok s' ∧ StreamInv s' tail' := by
  cases a with
  | read t buf =>
    have ht : ∀ b q, s.calls t ≠ some (.write b q) := by
      intro b q hcall
      rw [show s.calls t = none from hen] at hcall
      cases hcall
    obtain ⟨s', hs', hinv⟩ := stretchRead_streamInv h ht (show [].length = 0 from rfl) rfl
      (Nat.zero_le _) (.inl rfl)
    exact ⟨s', tail, hs', hinv⟩
  | write t buf =>
    have hsent : s.sent ++ buf = s.taken ++ s.pipe.contents ++ buf.drop 0 := by
      rw [h.sent_eq, h.tail_nil hone, List.append_nil, List.drop_zero]
    exact stretchWrite_streamInv (s := { s with sent := s.sent ++ buf })
      (fun u _ b q => hone u b q) hsent (fun u _ => h.pending u) h.returned (Nat.zero_le _)
      (.inl rfl)
  | resume t =>
    cases hcall : s.calls t with
    | none => exact absurd hcall hen.1
    | some call =>
      cases call with
      | read orig buf bufPos got =>
        obtain ⟨hgot, hbuf, hlt⟩ := h.pending t orig buf bufPos got hcall
        have hle : bufPos ≤ orig.length := by
          rw [hbuf, List.length_append, List.length_drop] at hlt
          omega
        have hpass : bufPos = 0 ∨ s.pipe.contents = [] := by
          simp only [FreshPass, hcall] at hfresh
          exact hfresh.imp_right contents_eq_nil_of_status
        have ht : ∀ b q, s.calls t ≠ some (.write b q) := by
          intro b q hw
          rw [hcall] at hw
          cases hw
        obtain ⟨s', hs', hinv⟩ := stretchRead_streamInv h ht hgot hbuf hle hpass
        refine ⟨s', tail, ?_, hinv⟩
        simp only [exec, hcall]
        exact hs'
      | write buf bufPos =>
        obtain ⟨htail, hlt⟩ := h.tail_eq t buf bufPos hcall
        have hpass : bufPos = 0 ∨ s.pipe.contents.length = ringBufferSize := by
          simp only [FreshPass, hcall] at hfresh
          exact hfresh.imp_right contents_full_of_status
        have hothers : ∀ u, u ≠ t → ∀ b q, s.calls u ≠ some (.write b q) :=
          fun u hut b q hu => hut (h.one_writer u t b buf q bufPos hu hcall)
        obtain ⟨s', tail', hs', hinv⟩ := stretchWrite_streamInv hothers (htail ▸ h.sent_eq)
          (fun u _ => h.pending u) h.returned hlt.le hpass
        refine ⟨s', tail', ?_, hinv⟩
        simp only [exec, hcall]
        exact hs'
  | incWrite =>
    exact ⟨_, tail, rfl,
      ⟨h.sent_eq, h.tail_eq, h.tail_nil, h.one_writer, h.pending, h.returned⟩⟩
  | decWrite =>
    have hcontents : s.pipe.decWrite.contents = s.pipe.contents := by
      unfold Pipe.decWrite
      split_ifs <;> rfl
    refine ⟨_, tail, rfl, ⟨?_, h.tail_eq, h.tail_nil, h.one_writer, h.pending, h.returned⟩⟩
    change s.sent = s.taken ++ s.pipe.decWrite.contents ++ tail
    rw [hcontents]
    exact h.sent_eq

theorem StreamInv.streamOk (h : StreamInv s tail) : StreamOk s where
  in_order := by
    rw [h.sent_eq, List.append_assoc]
    exact List.prefix_append ..
  pending := by
    intro t orig buf bufPos got hcall
    obtain ⟨hgot, hbuf, _⟩ := h.pending t orig buf bufPos got hcall
    exact ⟨hgot, hbuf⟩
  returned := h.returned
  no_assert := by
    intro a hen hone hfresh
    obtain ⟨s', _, hs', _⟩ := exec_streamInv h a hen hone hfresh
    exact ⟨s', hs'⟩

/-- In every run with one writer at a time in which every continued call finds
nothing moved yet or nothing to move, the stream is intact in every state. -/
theorem streamOk_of_freshPass {r : List (PipeAct × PipeSys)} (hrun : Trace.IsRun Step init r)
    (hone : ∀ x ∈ Trace.steps init r, OneWriter x.1 x.2)
    (hfresh : ∀ x ∈ Trace.steps init r, FreshPass x.1 x.2) :
    ∀ s ∈ Trace.states init r, StreamOk s := by
  have hinv := Trace.invariant_of_steps (fun s => ∃ tail, StreamInv s tail)
    (fun s a => OneWriter s a ∧ FreshPass s a) ?_ ⟨[], init_streamInv⟩ hrun
    (fun x hx => ⟨hone x hx, hfresh x hx⟩)
  · intro s hs
    obtain ⟨tail, htail⟩ := hinv s hs
    exact htail.streamOk
  · rintro s a s' ⟨tail, htail⟩ ⟨hw, hf⟩ ⟨hen, hexec⟩
    obtain ⟨s₁, tail', hs₁, hinv'⟩ := exec_streamInv htail a hen hw hf
    rw [hexec] at hs₁
    cases hs₁
    exact ⟨tail', hinv'⟩

theorem noWriter_of_view {v : PipeView} (hs : s.view = v)
    (h : ∀ t buf bufPos, v.calls t ≠ some (.write buf bufPos)) : s.NoWriter := by
  subst hs
  exact h

/-- A run with a sleep in which the reader gets both bytes in one pass. -/
theorem streamOk_sleep_then_two_bytes :
    ∃ r, Trace.IsRun Step init r ∧ r.length = 4 ∧ (∀ x ∈ Trace.steps init r, OneWriter x.1 x.2) ∧
      (∀ x ∈ Trace.steps init r, FreshPass x.1 x.2) ∧ ∀ s ∈ Trace.states init r, StreamOk s := by
  obtain ⟨s₁, h₁, hv₁⟩ := step_incWrite (s := init) rfl
  obtain ⟨s₂, h₂, hv₂⟩ := step_read_sleeps 0 [0, 0] hv₁ rfl rfl (by decide) (by decide)
  obtain ⟨s₃, h₃, hv₃⟩ := step_write_fits 1 [7, 8] hv₂ rfl (by decide)
  obtain ⟨s₄, h₄, _⟩ := step_resume_returns 0 hv₃ rfl (by decide) (by decide) (by decide)
  have hrun : Trace.IsRun Step init
      [(.incWrite, s₁), (.read 0 [0, 0], s₂), (.write 1 [7, 8], s₃), (.resume 0, s₄)] :=
    ⟨h₁, h₂, h₃, h₄, trivial⟩
  have hone : ∀ x ∈ Trace.steps init
      [(.incWrite, s₁), (.read 0 [0, 0], s₂), (.write 1 [7, 8], s₃), (.resume 0, s₄)],
      OneWriter x.1 x.2 := by
    simp only [Trace.steps, List.forall_mem_cons, OneWriter, true_and]
    refine ⟨noWriter_of_view hv₂ ?_, by simp⟩
    intro t buf bufPos
    by_cases ht : t = 0 <;> simp [ht, init, view]
  have hfresh : ∀ x ∈ Trace.steps init
      [(.incWrite, s₁), (.read 0 [0, 0], s₂), (.write 1 [7, 8], s₃), (.resume 0, s₄)],
      FreshPass x.1 x.2 := by
    have hcall : s₃.calls 0 = some (.read [0, 0] [0, 0] 0 []) := by
      rw [← view_calls, hv₃]
      rfl
    simp [Trace.steps, FreshPass, hcall]
  exact ⟨_, hrun, rfl, hone, hfresh, streamOk_of_freshPass hrun hone hfresh⟩

/-- A read of two bytes that gets one byte, sleeps and gets the other: the second
pass stores at offset 0, and `Ok(2)` is returned with the bytes `[8, 0]` where
`[7, 8]` were sent and taken. -/
theorem not_streamOk_second_pass :
    ∃ r, Trace.IsRun Step init r ∧ (∀ x ∈ Trace.steps init r, OneWriter x.1 x.2) ∧
      ∃ s ∈ Trace.states init r, s.sent = [7, 8] ∧
        s.returns = [⟨[0, 0], [8, 0], [7, 8], 2, false⟩] ∧ ¬StreamOk s := by
  obtain ⟨s₁, h₁, hv₁⟩ := step_incWrite (s := init) rfl
  obtain ⟨s₂, h₂, hv₂⟩ := step_read_sleeps 0 [0, 0] hv₁ rfl rfl (by decide) (by decide)
  obtain ⟨s₃, h₃, hv₃⟩ := step_write_fits 1 [7] hv₂ rfl (by decide)
  obtain ⟨s₄, h₄, hv₄⟩ := step_resume_drains 0 hv₃ rfl (by decide) (by decide) (by decide)
    (by decide)
  obtain ⟨s₅, h₅, hv₅⟩ := step_write_fits 1 [8] hv₄ rfl (by decide)
  obtain ⟨s₆, h₆, hv₆⟩ := step_resume_returns 0 hv₅ rfl (by decide) (by decide) (by decide)
  have hreturns : s₆.returns = [⟨[0, 0], [8, 0], [7, 8], 2, false⟩] := by
    rw [← view_returns, hv₆]
    rfl
  refine ⟨[(.incWrite, s₁), (.read 0 [0, 0], s₂), (.write 1 [7], s₃), (.resume 0, s₄),
    (.write 1 [8], s₅), (.resume 0, s₆)], ⟨h₁, h₂, h₃, h₄, h₅, h₆, trivial⟩, ?_, s₆, ?_, ?_,
    hreturns, ?_⟩
  · simp only [Trace.steps, List.forall_mem_cons, OneWriter, true_and]
    refine ⟨noWriter_of_view hv₂ ?_, noWriter_of_view hv₄ ?_, by simp⟩
    · intro t buf bufPos
      by_cases ht : t = 0 <;> simp [ht, init, view]
    · intro t buf bufPos
      by_cases ht : t = 0 <;> simp [ht, init, view]
  · simp [Trace.states]
  · rw [← view_sent, hv₆]
    rfl
  · intro hok
    have hplace := (hok.returned _ (hreturns ▸ List.mem_singleton_self _)).2.1
    revert hplace
    decide

end PipeSys

end Zinix
