import Zinix.Fs.Pipe

/-!
# What one stretch of a transfer does

The call returns after moving the rest, or the stretch drains (fills) the ring and sleeps,
or a later pass has moved more than was missing and the final assertion fails.
-/

namespace Zinix

namespace PipeRingBuffer

variable {rb : PipeRingBuffer}

theorem read_of_nil (h : rb.contents = []) (buf : List UInt8) :
    rb.read buf = (0, rb, buf) := by
  have hzero : rb.availableRead = 0 := by rw [← length_contents, h, List.length_nil]
  rw [read, if_pos hzero]

theorem write_of_full (h : rb.contents.length = ringBufferSize) (buf : List UInt8) :
    rb.write buf = (0, rb) := by
  have hzero : rb.availableWrite = 0 := by rw [availableWrite_eq, h, Nat.sub_self]
  rw [write, if_pos hzero]

end PipeRingBuffer

namespace Pipe

variable {self : ℕ} {p : Pipe} {buf : List UInt8} {bufPos : ℕ}

theorem readExact_done (h : bufPos = buf.length) :
    p.readExact self buf bufPos = .ok ⟨p.wakeUpWrite, buf, [], .returned bufPos⟩ := by
  rw [readExact, if_neg (by omega), Checked.ensure_pos h]
  rfl

theorem readExact_overrun (h : buf.length < bufPos) :
    p.readExact self buf bufPos = .error .assertion := by
  rw [readExact, if_neg (by omega), Checked.ensure_neg (by omega)]
  rfl

/-- What an empty ring makes of a read that still misses bytes. -/
def starve (p : Pipe) (self : ℕ) : Pipe := if p.haveWriter then p.sleepWaitRead self else p

def starveOutcome (p : Pipe) (bufPos : ℕ) : Outcome :=
  if p.haveWriter then .slept bufPos else .returned bufPos

theorem readExact_starve (self : ℕ) (h : bufPos < buf.length) (hnil : p.contents = []) :
    p.readExact self buf bufPos =
      .ok ⟨p.starve self, buf, [], p.starveOutcome bufPos⟩ := by
  rw [readExact, if_pos h]
  simp only [PipeRingBuffer.read_of_nil hnil]
  unfold starve starveOutcome
  split_ifs <;> rfl

theorem readExact_pass (self : ℕ) (h : bufPos < buf.length) (hne : p.contents ≠ []) :
    ∃ ring, ring.contents = p.contents.drop (min p.contents.length buf.length) ∧
      p.readExact self buf bufPos = (do
        let rest ← readExact self { p with buffer := ring }
          (p.contents.take (min p.contents.length buf.length) ++
            buf.drop (min p.contents.length buf.length))
          (bufPos + min p.contents.length buf.length)
        return { rest with
          stored := p.contents.take (min p.contents.length buf.length) ++ rest.stored }) := by
  obtain ⟨hn, hring, hbuf⟩ := p.buffer.read_spec buf
  have hpos := List.length_pos_iff.mpr hne
  have hmin : min p.contents.length buf.length ≠ 0 := by omega
  refine ⟨(p.buffer.read buf).2.1, hring, ?_⟩
  rw [readExact, if_pos h]
  change (if (p.buffer.read buf).1 = 0 then _ else _) = _
  rw [hn, if_neg (by exact hmin), hbuf]
  have htake : ∀ k, k ≤ p.contents.length →
      (p.contents.take k ++ buf.drop k).take k = p.contents.take k := by
    intro k hk
    rw [List.take_append_of_le_length (by rw [List.length_take]; omega), List.take_take,
      Nat.min_self]
  simp only [contents] at htake ⊢
  rw [htake _ (Nat.min_le_left ..)]

theorem readExact_cases (self : ℕ) (p : Pipe) (buf : List UInt8)
    (hpos : bufPos ≤ buf.length) :
    (∃ n ring, n ≤ p.contents.length ∧ bufPos + n = buf.length ∧
      ring.contents = p.contents.drop n ∧
      p.readExact self buf bufPos = .ok ⟨{ p with buffer := ring }.wakeUpWrite,
        p.contents.take n ++ buf.drop n, p.contents.take n, .returned (bufPos + n)⟩) ∨
    (bufPos + p.contents.length < buf.length ∧ ∃ ring, ring.contents = [] ∧
      p.readExact self buf bufPos = .ok ⟨{ p with buffer := ring }.starve self,
        p.contents ++ buf.drop p.contents.length, p.contents,
        p.starveOutcome (bufPos + p.contents.length)⟩) ∨
    (p.readExact self buf bufPos = .error .assertion ∧ 0 < bufPos ∧ p.contents ≠ [] ∧
      buf.length < bufPos + p.contents.length) := by
  by_cases hlt : bufPos < buf.length
  · by_cases hnil : p.contents = []
    · right
      left
      refine ⟨by rw [hnil, List.length_nil]; exact hlt, p.buffer, hnil, ?_⟩
      rw [readExact_starve self hlt hnil, hnil]
      simp
    · obtain ⟨ring, hring, heq⟩ := readExact_pass self hlt hnil
      have hle : min p.contents.length buf.length ≤ p.contents.length := Nat.min_le_left ..
      have hbuf : (p.contents.take (min p.contents.length buf.length) ++
          buf.drop (min p.contents.length buf.length)).length = buf.length := by
        rw [List.length_append, List.length_take, List.length_drop]
        omega
      rcases Nat.lt_trichotomy (bufPos + min p.contents.length buf.length) buf.length with
        hless | hexact | hmore
      · right
        left
        have hmin : min p.contents.length buf.length = p.contents.length := by omega
        rw [hmin] at hring heq hbuf hless
        rw [List.drop_length] at hring
        rw [List.take_length] at heq hbuf
        refine ⟨hless, ring, hring, ?_⟩
        rw [heq, readExact_starve self (p := { p with buffer := ring }) (by rw [hbuf]; exact hless) hring]
        simp only [Checked.ok_bind, Checked.pure_eq, List.append_nil]
        rfl
      · left
        refine ⟨_, ring, hle, hexact, hring, ?_⟩
        rw [heq, readExact_done (by rw [hbuf]; exact hexact)]
        simp only [Checked.ok_bind, Checked.pure_eq, List.append_nil]
      · right
        right
        refine ⟨?_, by omega, hnil, by omega⟩
        rw [heq, readExact_overrun (by rw [hbuf]; exact hmore), Checked.error_bind]
  · left
    have hdone : bufPos = buf.length := by omega
    refine ⟨0, p.buffer, Nat.zero_le _, hdone, rfl, ?_⟩
    rw [readExact_done hdone]
    simp

theorem writeExact_done (h : bufPos = buf.length) :
    p.writeExact self buf bufPos = .ok ⟨p.wakeUpRead, .returned bufPos⟩ := by
  rw [writeExact, if_neg (by omega), Checked.ensure_pos h]
  rfl

theorem writeExact_overrun (h : buf.length < bufPos) :
    p.writeExact self buf bufPos = .error .assertion := by
  rw [writeExact, if_neg (by omega), Checked.ensure_neg (by omega)]
  rfl

theorem writeExact_block (h : bufPos < buf.length)
    (hfull : p.contents.length = ringBufferSize) :
    p.writeExact self buf bufPos = .ok ⟨p.sleepWaitWrite self, .slept bufPos⟩ := by
  rw [writeExact, if_pos h]
  simp only [PipeRingBuffer.write_of_full hfull, if_true]
  rfl

theorem writeExact_pass (self : ℕ) (h : bufPos < buf.length) (hroom : p.contents.length ≠ ringBufferSize) :
    ∃ ring, ring.contents = p.contents ++
        buf.take (min (ringBufferSize - p.contents.length) buf.length) ∧
      p.writeExact self buf bufPos = writeExact self { p with buffer := ring } buf
        (bufPos + min (ringBufferSize - p.contents.length) buf.length) := by
  obtain ⟨hn, hring⟩ := p.buffer.write_spec buf
  have hle := p.buffer.length_contents_le
  change p.contents.length ≤ _ at hle
  have hmin : min (ringBufferSize - p.contents.length) buf.length ≠ 0 := by omega
  refine ⟨(p.buffer.write buf).2, hring, ?_⟩
  rw [writeExact, if_pos h]
  change (if (p.buffer.write buf).1 = 0 then _ else _) = _
  rw [hn, if_neg (by exact hmin)]
  rfl

theorem writeExact_cases (self : ℕ) (p : Pipe) (buf : List UInt8)
    (hpos : bufPos ≤ buf.length) :
    (∃ n ring, p.contents.length + n ≤ ringBufferSize ∧ bufPos + n = buf.length ∧
      ring.contents = p.contents ++ buf.take n ∧
      p.writeExact self buf bufPos =
        .ok ⟨{ p with buffer := ring }.wakeUpRead, .returned (bufPos + n)⟩) ∨
    (∃ n ring, p.contents.length + n = ringBufferSize ∧ bufPos + n < buf.length ∧
      ring.contents = p.contents ++ buf.take n ∧
      p.writeExact self buf bufPos =
        .ok ⟨{ p with buffer := ring }.sleepWaitWrite self, .slept (bufPos + n)⟩) ∨
    (p.writeExact self buf bufPos = .error .assertion ∧ 0 < bufPos ∧
      p.contents.length ≠ ringBufferSize ∧
      buf.length < bufPos + (ringBufferSize - p.contents.length)) := by
  have hle := p.buffer.length_contents_le
  change p.contents.length ≤ _ at hle
  by_cases hlt : bufPos < buf.length
  · by_cases hfull : p.contents.length = ringBufferSize
    · right
      left
      refine ⟨0, p.buffer, hfull, hlt, by simp [contents], ?_⟩
      exact writeExact_block hlt hfull
    · obtain ⟨ring, hring, heq⟩ := writeExact_pass self hlt hfull
      rcases Nat.lt_trichotomy
        (bufPos + min (ringBufferSize - p.contents.length) buf.length) buf.length with
        hless | hexact | hmore
      · right
        left
        have hmin : min (ringBufferSize - p.contents.length) buf.length =
            ringBufferSize - p.contents.length := by omega
        rw [hmin] at hring heq hless
        have hsum : p.contents.length + (ringBufferSize - p.contents.length) =
            ringBufferSize := by omega
        refine ⟨_, ring, hsum, hless, hring, ?_⟩
        rw [heq, writeExact_block hless]
        change ring.contents.length = _
        rw [hring, List.length_append, List.length_take]
        omega
      · left
        refine ⟨_, ring, by omega, hexact, hring, ?_⟩
        rw [heq, writeExact_done hexact]
      · right
        right
        exact ⟨heq.trans (writeExact_overrun hmore), by omega, hfull, by omega⟩
  · left
    have hdone : bufPos = buf.length := by omega
    exact ⟨0, p.buffer, hle, hdone, by simp [contents], writeExact_done hdone⟩

theorem readExact_drains (self : ℕ) (p : Pipe) (buf : List UInt8)
    (h : bufPos + p.contents.length < buf.length) :
    ∃ ring, ring.contents = [] ∧ p.readExact self buf bufPos =
      .ok ⟨{ p with buffer := ring }.starve self, p.contents ++ buf.drop p.contents.length,
        p.contents, p.starveOutcome (bufPos + p.contents.length)⟩ := by
  rcases readExact_cases self p buf (show bufPos ≤ buf.length by omega) with
    ⟨n, _, hn, hend, _, _⟩ | ⟨_, hdrain⟩ | ⟨_, _, _, hmore⟩
  · omega
  · exact hdrain
  · omega

theorem readExact_exact (self : ℕ) (p : Pipe) (buf : List UInt8)
    (h : bufPos + p.contents.length = buf.length) :
    ∃ ring, ring.contents = [] ∧ p.readExact self buf bufPos =
      .ok ⟨{ p with buffer := ring }.wakeUpWrite, p.contents ++ buf.drop p.contents.length,
        p.contents, .returned buf.length⟩ := by
  rcases readExact_cases self p buf (show bufPos ≤ buf.length by omega) with
    ⟨n, ring, hn, hend, hring, heq⟩ | ⟨hless, _⟩ | ⟨_, _, _, hmore⟩
  · obtain rfl : n = p.contents.length := by omega
    refine ⟨ring, by rw [hring, List.drop_length], ?_⟩
    rw [heq, hend, List.take_length]
  · omega
  · omega

theorem writeExact_fits (self : ℕ) (p : Pipe) (buf : List UInt8)
    (h : p.contents.length + buf.length ≤ ringBufferSize) :
    ∃ ring, ring.contents = p.contents ++ buf ∧ p.writeExact self buf 0 =
      .ok ⟨{ p with buffer := ring }.wakeUpRead, .returned buf.length⟩ := by
  rcases writeExact_cases self p buf (Nat.zero_le buf.length) with
    ⟨n, ring, _, hend, hring, heq⟩ | ⟨n, _, hn, hless, _, _⟩ | ⟨_, hpos, _⟩
  · obtain rfl : n = buf.length := by omega
    refine ⟨ring, by rw [hring, List.take_length], ?_⟩
    rw [heq, hend]
  · omega
  · omega

/-- A write that is longer than the room in the ring fills it and sleeps. -/
theorem writeExact_fills (self : ℕ) (p : Pipe) (buf : List UInt8)
    (h : ringBufferSize < p.contents.length + buf.length) :
    ∃ n ring, p.contents.length + n = ringBufferSize ∧
      ring.contents = p.contents ++ buf.take n ∧ p.writeExact self buf 0 =
        .ok ⟨{ p with buffer := ring }.sleepWaitWrite self, .slept (0 + n)⟩ := by
  rcases writeExact_cases self p buf (Nat.zero_le buf.length) with
    ⟨n, ring, hn, hend, _, _⟩ | ⟨n, ring, hn, _, hring, heq⟩ | ⟨_, hpos, _⟩
  · omega
  · exact ⟨n, ring, hn, hring, heq⟩
  · omega

end Pipe

/-- A system with its ring seen as the list of bytes in it. -/
structure PipeView where
  contents : List UInt8
  writeCnt : UInt8
  waitWrite : List ℕ
  waitRead : List ℕ
  calls : ℕ → Option Call
  sent : List UInt8
  taken : List UInt8
  returns : List ReadReturn

namespace PipeSys

variable {buf orig got : List UInt8} {bufPos : ℕ}

def view (s : PipeSys) : PipeView where
  contents := s.pipe.contents
  writeCnt := s.pipe.writeCnt
  waitWrite := s.pipe.waitWrite
  waitRead := s.pipe.waitRead
  calls := s.calls
  sent := s.sent
  taken := s.taken
  returns := s.returns

@[simp] theorem view_calls (s : PipeSys) : s.view.calls = s.calls := rfl

@[simp] theorem view_sent (s : PipeSys) : s.view.sent = s.sent := rfl

@[simp] theorem view_returns (s : PipeSys) : s.view.returns = s.returns := rfl

variable {s : PipeSys} {v : PipeView}

theorem step_incWrite (hs : s.view = v) :
    ∃ s', Step s .incWrite s' ∧ s'.view = { v with writeCnt := v.writeCnt + 1 } := by
  subst hs
  exact ⟨_, ⟨trivial, rfl⟩, rfl⟩

theorem step_read_sleeps (t : ℕ) (buf : List UInt8) (hs : s.view = v) (hcall : v.calls t = none)
    (hnil : v.contents = []) (hcnt : v.writeCnt ≠ 0) (hpos : 0 < buf.length) :
    ∃ s', Step s (.read t buf) s' ∧ s'.view = { v with
      waitRead := v.waitRead ++ [t]
      calls := Function.update v.calls t (some (.read buf buf 0 [])) } := by
  subst hs
  have hwriter : s.pipe.haveWriter = true := by simpa [Pipe.haveWriter, view] using hcnt
  have hstarve := Pipe.readExact_starve t hpos (show s.pipe.contents = [] from hnil)
  simp only [Pipe.starve, Pipe.starveOutcome, hwriter, if_true] at hstarve
  refine ⟨{ s with
    pipe := s.pipe.sleepWaitRead t
    calls := Function.update s.calls t (some (.read buf buf 0 [])) }, ⟨hcall, ?_⟩, rfl⟩
  simp only [exec, stretchRead, hstarve, Checked.ok_bind, List.append_nil]
  rfl

theorem step_write_fits (t : ℕ) (buf : List UInt8) (hs : s.view = v) (hcall : v.calls t = none)
    (hroom : v.contents.length + buf.length ≤ ringBufferSize) :
    ∃ s', Step s (.write t buf) s' ∧ s'.view = { v with
      contents := v.contents ++ buf
      waitRead := []
      sent := v.sent ++ buf } := by
  subst hs
  obtain ⟨ring, hring, heq⟩ := Pipe.writeExact_fits t s.pipe buf hroom
  have hself : Function.update s.calls t none = s.calls := by
    rw [← show s.calls t = none from hcall, Function.update_eq_self]
  refine ⟨{ s with
    pipe := { s.pipe with buffer := ring }.wakeUpRead
    sent := s.sent ++ buf }, ⟨hcall, ?_⟩, ?_⟩
  · simp only [exec, stretchWrite, heq, Checked.ok_bind, hself]
    rfl
  · simp only [view, Pipe.wakeUpRead, Pipe.contents, hring]

theorem step_write_fills (t : ℕ) (buf : List UInt8) (hs : s.view = v) (hcall : v.calls t = none)
    (hroom : ringBufferSize < v.contents.length + buf.length) :
    ∃ n s', v.contents.length + n = ringBufferSize ∧ Step s (.write t buf) s' ∧
      s'.view = { v with
        contents := v.contents ++ buf.take n
        waitWrite := v.waitWrite ++ [t]
        calls := Function.update v.calls t (some (.write buf n))
        sent := v.sent ++ buf } := by
  subst hs
  obtain ⟨n, ring, hn, hring, heq⟩ := Pipe.writeExact_fills t s.pipe buf hroom
  rw [Nat.zero_add] at heq
  refine ⟨n, { s with
    pipe := { s.pipe with buffer := ring }.sleepWaitWrite t
    calls := Function.update s.calls t (some (.write buf n))
    sent := s.sent ++ buf }, hn, ⟨hcall, ?_⟩, ?_⟩
  · simp only [exec, stretchWrite, heq, Checked.ok_bind]
    rfl
  · simp only [view, Pipe.sleepWaitWrite, Pipe.contents, hring]

theorem stretchRead_drains (t : ℕ) (orig : List UInt8) (got : List UInt8) (hs : s.view = v)
    (hcnt : v.writeCnt ≠ 0) (hmiss : bufPos + v.contents.length < buf.length) :
    ∃ s', s.stretchRead t orig buf bufPos got = .ok s' ∧ s'.view = { v with
      contents := []
      waitRead := v.waitRead ++ [t]
      taken := v.taken ++ v.contents
      calls := Function.update v.calls t (some (.read orig
        (v.contents ++ buf.drop v.contents.length) (bufPos + v.contents.length)
        (got ++ v.contents))) } := by
  subst hs
  obtain ⟨ring, hring, heq⟩ := Pipe.readExact_drains t s.pipe buf hmiss
  have hwriter : s.pipe.haveWriter = true := by simpa [Pipe.haveWriter, view] using hcnt
  have hkeep : { s.pipe with buffer := ring }.haveWriter = true := hwriter
  refine ⟨_, by
    simp only [stretchRead, heq, Checked.ok_bind, Pipe.starve, Pipe.starveOutcome, hwriter, hkeep,
      if_true]
    rfl, ?_⟩
  simp only [view, Pipe.sleepWaitRead, Pipe.contents, hring]

theorem step_read_drains (t : ℕ) (buf : List UInt8) (hs : s.view = v) (hcall : v.calls t = none)
    (hcnt : v.writeCnt ≠ 0) (hmiss : v.contents.length < buf.length) :
    ∃ s', Step s (.read t buf) s' ∧ s'.view = { v with
      contents := []
      waitRead := v.waitRead ++ [t]
      taken := v.taken ++ v.contents
      calls := Function.update v.calls t (some (.read buf
        (v.contents ++ buf.drop v.contents.length) (0 + v.contents.length)
        ([] ++ v.contents))) } := by
  obtain ⟨s', heq, hview⟩ := stretchRead_drains t buf [] hs hcnt
    (show 0 + v.contents.length < buf.length by omega)
  subst hs
  exact ⟨s', ⟨hcall, heq⟩, hview⟩

theorem step_resume_drains (t : ℕ) (hs : s.view = v)
    (hcall : v.calls t = some (.read orig buf bufPos got)) (hr : t ∉ v.waitRead)
    (hw : t ∉ v.waitWrite) (hcnt : v.writeCnt ≠ 0)
    (hmiss : bufPos + v.contents.length < buf.length) :
    ∃ s', Step s (.resume t) s' ∧ s'.view = { v with
      contents := []
      waitRead := v.waitRead ++ [t]
      taken := v.taken ++ v.contents
      calls := Function.update v.calls t (some (.read orig
        (v.contents ++ buf.drop v.contents.length) (bufPos + v.contents.length)
        (got ++ v.contents))) } := by
  obtain ⟨s', heq, hview⟩ := stretchRead_drains t orig got hs hcnt hmiss
  subst hs
  change s.calls t = _ at hcall
  refine ⟨s', ⟨⟨by simp [hcall], hr, hw⟩, ?_⟩, hview⟩
  simp only [exec, hcall]
  exact heq

theorem step_resume_returns (t : ℕ) (hs : s.view = v)
    (hcall : v.calls t = some (.read orig buf bufPos got)) (hr : t ∉ v.waitRead)
    (hw : t ∉ v.waitWrite) (hmiss : bufPos + v.contents.length = buf.length) :
    ∃ s', Step s (.resume t) s' ∧ s'.view = { v with
      contents := []
      waitWrite := []
      taken := v.taken ++ v.contents
      calls := Function.update v.calls t none
      returns := v.returns ++ [⟨orig, v.contents ++ buf.drop v.contents.length,
        got ++ v.contents, buf.length, v.writeCnt == 0⟩] } := by
  subst hs
  obtain ⟨ring, hring, heq⟩ := Pipe.readExact_exact t s.pipe buf hmiss
  change s.calls t = _ at hcall
  refine ⟨_, ⟨⟨by simp [hcall], hr, hw⟩, by
    simp only [exec, hcall, stretchRead, heq, Checked.ok_bind]
    rfl⟩, ?_⟩
  simp only [view, Pipe.wakeUpWrite, Pipe.contents, hring, Pipe.haveWriter, bne, Bool.not_not]

end PipeSys

end Zinix
