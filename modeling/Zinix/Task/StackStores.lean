import Zinix.Lib.Recorded
import Zinix.Task.StackDecode

/-!
# The stores to the stack of a new task

The stores of `create_user_task` are recorded as they are made, so that those of a run that
panics are known as well.
-/

namespace Zinix

namespace UserStack

/-- The stack pointer below a string and the address under which the user sees it. -/
def placeString (start sp : ℕ) (s : List Byte) : Checked (ℕ × ℕ) := do
  let userSp ← subUsize sp (← addUsize s.length 1)
  let ptr ← userAddr start userSp
  return (userSp, ptr)

/-- A store that is recorded, and then made. There is no page below the direct map. -/
def recordStore (addr : ℕ) (bytes : List Byte) : Recorded Chunk Unit := do
  Recorded.emit ⟨addr, bytes⟩
  Checked.ensure (phyMemOffset ≤ addr) (.explicit "error address access!")

def storesMade (start : ℕ) (auxv : List AuxHeader) (args : List (List Byte)) : List Chunk :=
  Recorded.record (buildBy recordStore start auxv args)

section Sim

open Program Recorded

variable {α β γ : Type} {x : Program Phys α} {y : Recorded Chunk α}

/-- The first computation makes the stores that the second one records, and has its result. -/
def Sim (x : Program Phys α) (y : Recorded Chunk α) : Prop :=
  ∀ p log, ∃ cs, (y log).2 = log ++ cs ∧ x p = (y log).1.map fun a => (a, p.writeChunks cs)

theorem sim_pure (a : α) : Sim (pure a) (pure a) := fun _ log => ⟨[], (List.append_nil log).symm, rfl⟩

theorem sim_lift (c : Checked α) : Sim (liftM c) (liftM c) := by
  intro p log
  refine ⟨[], ?_, ?_⟩
  · cases c <;> exact (List.append_nil log).symm
  · cases c <;> rfl

theorem Sim.bind {f : α → Program Phys β} {g : α → Recorded Chunk β} (h : Sim x y)
    (hf : ∀ a, Sim (f a) (g a)) : Sim (x >>= f) (y >>= g) := by
  intro p log
  obtain ⟨cs, hlog, hx⟩ := h p log
  rw [Recorded.bind_apply, Program.bind_apply, hx]
  rcases hrun : y log with ⟨_ | a, l⟩
  · rw [hrun] at hlog
    exact ⟨cs, hlog, rfl⟩
  · rw [hrun] at hlog
    obtain ⟨ds, hlog', hf⟩ := hf a (p.writeChunks cs) l
    refine ⟨cs ++ ds, ?_, ?_⟩
    · rw [← List.append_assoc, ← hlog, hlog']
    · rw [Phys.writeChunks_append]
      exact hf

theorem sim_write (a : ℕ) (bytes : List Byte) : Sim (writeVirt a bytes) (recordStore a bytes) := by
  intro p log
  refine ⟨[⟨a, bytes⟩], ?_, ?_⟩
  · unfold recordStore
    by_cases hle : phyMemOffset ≤ a
    · rw [Checked.ensure_pos hle]
      rfl
    · rw [Checked.ensure_neg hle]
      rfl
  · unfold recordStore writeVirt
    by_cases hle : phyMemOffset ≤ a
    · rw [Checked.ensure_pos hle]
      rfl
    · rw [Checked.ensure_neg hle]
      rfl

theorem sim_foldlM {f : β → γ → Program Phys β} {g : β → γ → Recorded Chunk β}
    (h : ∀ b c, Sim (f b c) (g b c)) (cs : List γ) (b : β) : Sim (cs.foldlM f b) (cs.foldlM g b) := by
  induction cs generalizing b with
  | nil => exact sim_pure b
  | cons c cs ih =>
    rw [List.foldlM_cons, List.foldlM_cons]
    exact (h b c).bind ih

theorem sim_writeWords (a : ℕ) (ws : List ℕ) :
    Sim (writeWords writeVirt a ws) (writeWords recordStore a ws) := by
  induction ws generalizing a with
  | nil => exact sim_pure ()
  | cons w ws ih => exact (sim_write a _).bind fun _ => ih (a + 8)

theorem sim_pushString (start : ℕ) (st : ℕ × List ℕ) (s : List Byte) :
    Sim (pushString writeVirt start st s) (pushString recordStore start st s) := by
  refine (sim_lift _).bind fun n => (sim_lift _).bind fun u => (sim_lift _).bind fun ptr => ?_
  exact (sim_write _ _).bind fun _ => sim_pure _

theorem sim_pushPointers (sp : ℕ) (ptrs : List ℕ) :
    Sim (pushPointers writeVirt sp ptrs) (pushPointers recordStore sp ptrs) := by
  refine (sim_lift _).bind fun u => (sim_write _ _).bind fun _ => ?_
  exact (sim_writeWords _ _).bind fun _ => sim_pure _

theorem sim_buildBy (start : ℕ) (auxv : List AuxHeader) (args : List (List Byte)) :
    Sim (buildBy writeVirt start auxv args) (buildBy recordStore start auxv args) := by
  unfold buildBy
  refine (sim_foldlM (sim_pushString start) _ _).bind fun envp => ?_
  refine (sim_lift _).bind fun _ => ?_
  refine (sim_foldlM (sim_pushString start) _ _).bind fun argv => ?_
  refine (sim_lift _).bind fun _ => (sim_lift _).bind fun _ => (sim_lift _).bind fun _ => ?_
  refine (sim_write _ _).bind fun _ => (sim_lift _).bind fun _ => (sim_lift _).bind fun _ => ?_
  refine (sim_write _ _).bind fun _ => (sim_lift _).bind fun _ => (sim_lift _).bind fun _ => ?_
  refine (sim_lift _).bind fun _ => (sim_writeWords _ _).bind fun _ => ?_
  refine (sim_pushPointers _ _).bind fun _ => (sim_lift _).bind fun _ => ?_
  refine (sim_pushPointers _ _).bind fun _ => (sim_lift _).bind fun _ => ?_
  refine (sim_lift _).bind fun _ => (sim_write _ _).bind fun _ => (sim_lift _).bind fun _ => ?_
  exact (sim_lift _).bind fun _ => (sim_lift _).bind fun _ => sim_pure _

/-- A run of the code has the result of the run that is recorded, and has made its stores. -/
theorem build_eq_record (start : ℕ) (auxv : List AuxHeader) (args : List (List Byte)) (p : Phys) :
    build start auxv args p = ((buildBy recordStore start auxv args) []).1.map fun regs =>
      (regs, p.writeChunks (storesMade start auxv args)) := by
  obtain ⟨cs, hlog, hrun⟩ := sim_buildBy start auxv args p []
  rw [build, hrun, storesMade, record, hlog, List.nil_append]

end Sim

/-- No pointer to one of the strings can be computed, and those before it are in the page. -/
def CutOff (start : ℕ) : ℕ → List (List Byte) → Prop
  | _, [] => False
  | sp, s :: strs => (∃ e, placeString start sp s = .error e) ∨
      start ≤ sp - (s.length + 1) + pageSize ∧ CutOff start (sp - (s.length + 1)) strs

def Below (base : ℕ) (log : List Chunk) : Prop := ∃ c ∈ log, c.bytes ≠ [] ∧ c.addr < base

open Recorded

section Rules

variable {α : Type} {start sp base a b : ℕ} {log log' : List Chunk}
  {g : ℕ → Recorded Chunk α} {Q : α → List Chunk → Prop} {E : List Chunk → Prop}
  {bytes : List Byte}

theorem Below.mono (h : Below base log) (hle : log <+: log') : Below base log' := by
  obtain ⟨c, hc, hlow⟩ := h
  exact ⟨c, hle.subset hc, hlow⟩

theorem Below.raise (h : Below a log) (hle : a ≤ b) : Below b log := by
  obtain ⟨c, hc, hne, hlow⟩ := h
  exact ⟨c, hc, hne, hlow.trans_le hle⟩

theorem below_emit (hne : bytes ≠ []) (h : a < base) :
    Below base (log ++ [⟨a, bytes⟩]) :=
  ⟨⟨a, bytes⟩, by simp, hne, h⟩

theorem ends_sub_bind (d : ℕ) (hd : d = a - b) (hok : b ≤ a → Ends (g d) log Q E)
    (herr : a < b → E log) : Ends (liftM (subUsize a b) >>= g) log Q E := by
  refine Ends.lift_bind (fun c hc => ?_) fun e he => ?_
  · obtain ⟨hle, rfl⟩ := subUsize_eq_ok.mp hc
    rw [← hd]
    exact hok hle
  · unfold subUsize at he
    split_ifs at he with hle
    exact herr (Nat.lt_of_not_le hle)

def NoAddr (start sp : ℕ) : Prop := sp + userStackMaxAddr < start ∨ wordSize ≤ sp + userStackMaxAddr

theorem noAddr_of_error {e : Panic} (h : userAddr start sp = .error e) : NoAddr start sp := by
  by_cases hword : sp + userStackMaxAddr < wordSize
  · exact .inl (lt_of_shiftUsize_error hword h)
  · exact .inr (Nat.le_of_not_lt hword)

theorem ends_addr_bind (hok : Ends (g (ptrOf start sp)) log Q E) (herr : NoAddr start sp → E log) :
    Ends (liftM (userAddr start sp) >>= g) log Q E := by
  refine Ends.lift_bind (fun c hc => ?_) fun e he => herr (noAddr_of_error he)
  rw [userAddr_eq_ok hc]
  exact hok

theorem ends_recordStore (a : ℕ) (bytes : List Byte) :
    Ends (recordStore a bytes) log (fun _ l => l = log ++ [⟨a, bytes⟩])
      (fun l => l = log ++ [⟨a, bytes⟩] ∧ a < phyMemOffset) := by
  unfold recordStore
  by_cases hle : phyMemOffset ≤ a
  · rw [Checked.ensure_pos hle]
    exact rfl
  · rw [Checked.ensure_neg hle]
    exact ⟨rfl, Nat.lt_of_not_le hle⟩

/-- What is left of an array of stores when one of them faults. -/
def Faults (log : List Chunk) (cs : List Chunk) (l : List Chunk) : Prop :=
  log <+: l ∧ l <+: log ++ cs ∧ Below phyMemOffset l

theorem Faults.cons {c : Chunk} {cs : List Chunk} (h : Faults (log ++ [c]) cs log') :
    Faults log (c :: cs) log' := by
  obtain ⟨hle, hge, hlow⟩ := h
  rw [List.append_assoc] at hge
  exact ⟨(List.prefix_append log [c]).trans hle, hge, hlow⟩

theorem faults_emit (hne : bytes ≠ []) (h : a < phyMemOffset) (cs : List Chunk) :
    Faults log (⟨a, bytes⟩ :: cs) (log ++ [⟨a, bytes⟩]) :=
  ⟨List.prefix_append .., ⟨cs, by simp⟩, below_emit hne h⟩

theorem wordBytes_ne_nil (w : ℕ) : wordBytes w ≠ [] := by
  intro h
  have hlen := length_wordBytes w
  rw [h] at hlen
  cases hlen

theorem ends_writeWords (a : ℕ) (ws : List ℕ) :
    Ends (writeWords recordStore a ws) log (fun _ l => l = log ++ wordChunks a ws)
      (Faults log (wordChunks a ws)) := by
  induction ws generalizing a log with
  | nil => exact ends_pure (List.append_nil log).symm
  | cons w ws ih =>
    rw [writeWords]
    refine ((ends_recordStore a (wordBytes w)).weaken ?_).bind ?_
    · rintro l ⟨rfl, hlow⟩
      exact faults_emit (wordBytes_ne_nil w) hlow _
    · rintro _ _ rfl
      refine (ih (a + 8)).mono ?_ fun _ he => he.cons
      rintro _ _ rfl
      rw [wordChunks, List.append_assoc, List.singleton_append]

theorem ends_pushPointers (ptrs : List ℕ) {d : ℕ} (hd : d = sp - (ptrs.length + 1) * 8) :
    Ends (pushPointers recordStore sp ptrs) log
      (fun r l => r = d ∧ l = log ++ pointerChunks d ptrs)
      (fun l => sp < (ptrs.length + 1) * 8 ∧ l = log ∨ Faults log (pointerChunks d ptrs) l) := by
  unfold pushPointers
  refine ends_sub_bind d hd (fun hle => ?_) fun hlt => .inl ⟨hlt, rfl⟩
  refine ((ends_recordStore _ _).weaken ?_).bind ?_
  · rintro l ⟨rfl, hlow⟩
    exact .inr (faults_emit (wordBytes_ne_nil 0) hlow _)
  · rintro _ _ rfl
    refine ((ends_writeWords d ptrs).weaken fun _ he => .inr he.cons).bind ?_
    rintro _ _ rfl
    refine ends_pure ⟨rfl, ?_⟩
    rw [pointerChunks, List.append_assoc, List.singleton_append]

end Rules

section Strings

variable {start sp base : ℕ} {log : List Chunk} {strs : List (List Byte)}

theorem strSp_add_length (h : 0 < strSp sp strs) : strSp sp strs + strs.length ≤ sp := by
  have hsum : strs.length ≤ strSize strs := by
    clear h
    induction strs with
    | nil => exact le_rfl
    | cons s strs ih =>
      have hsize : strSize (s :: strs) = s.length + 1 + strSize strs := List.sum_cons
      rw [hsize, List.length_cons]
      omega
  rw [strSp_eq] at h ⊢
  omega

theorem strSp_env : strSp start env = start - 200 := by
  have hsum : strSize env = 200 := by
    unfold env
    decide +kernel
  rw [strSp_eq, hsum]

theorem below_strChunks (h : strSp sp strs < base) (hsp : base ≤ sp) :
    Below base (strChunks sp strs) := by
  induction strs generalizing sp with
  | nil => exact absurd hsp (Nat.not_le.mpr h)
  | cons s strs ih =>
    rw [strChunks]
    by_cases hle : base ≤ sp - (s.length + 1)
    · obtain ⟨c, hc, hlow⟩ := ih h hle
      exact ⟨c, List.mem_cons_of_mem _ hc, hlow⟩
    · exact ⟨_, List.mem_cons_self .., by simp, Nat.lt_of_not_le hle⟩

theorem placeString_eq_ok {s : List Byte} {r : ℕ × ℕ} (h : placeString start sp s = .ok r) :
    r = (sp - (s.length + 1), ptrOf start (sp - (s.length + 1))) ∧
      sp - (s.length + 1) + userStackMaxAddr < wordSize := by
  obtain ⟨n, hn, h⟩ := Checked.bind_eq_ok.mp h
  obtain ⟨u, hu, h⟩ := Checked.bind_eq_ok.mp h
  obtain ⟨ptr, hptr, h⟩ := Checked.bind_eq_ok.mp h
  cases h
  obtain rfl := (addUsize_eq_ok.mp hn).2
  obtain rfl := (subUsize_eq_ok.mp hu).2
  refine ⟨by rw [userAddr_eq_ok hptr], ?_⟩
  rw [userAddr, shiftUsize] at hptr
  obtain ⟨sum, hsum, -⟩ := Checked.bind_eq_ok.mp hptr
  exact (addUsize_eq_ok.mp hsum).1

theorem pushString_eq (ptrs : List ℕ) (s : List Byte) :
    pushString recordStore start (sp, ptrs) s = do
      let r ← (placeString start sp s : Checked (ℕ × ℕ))
      recordStore r.1 (s ++ [0])
      return (r.1, ptrs ++ [r.2]) := by
  unfold pushString placeString
  simp only [lift_bind_assoc, Checked.pure_eq, lift_ok_bind]

theorem ends_pushString (ptrs : List ℕ) (s : List Byte) :
    Ends (pushString recordStore start (sp, ptrs) s) log
      (fun r l => r = (sp - (s.length + 1), ptrs ++ [ptrOf start (sp - (s.length + 1))]) ∧
        l = log ++ [⟨sp - (s.length + 1), s ++ [0]⟩] ∧
        sp - (s.length + 1) + userStackMaxAddr < wordSize)
      (fun l => (∃ e, placeString start sp s = .error e) ∧ l = log ∨
        Faults log [⟨sp - (s.length + 1), s ++ [0]⟩] l) := by
  rw [pushString_eq]
  refine Ends.lift_bind (fun r hr => ?_) fun e he => .inl ⟨⟨e, he⟩, rfl⟩
  obtain ⟨rfl, hword⟩ := placeString_eq_ok hr
  refine ((ends_recordStore _ _).weaken ?_).bind ?_
  · rintro l ⟨rfl, hlow⟩
    exact .inr (faults_emit (by simp) hlow _)
  · rintro _ _ rfl
    exact ends_pure ⟨rfl, rfl, hword⟩

/-- The loops over the environment and over the arguments. A string is stored below the page
unless the run stops before. -/
theorem ends_pushStrings (hbase : phyMemOffset ≤ base) (hstart : start = base + pageSize)
    (strs : List (List Byte)) (sp : ℕ) (ptrs : List ℕ) (log : List Chunk) :
    Ends (strs.foldlM (pushString recordStore start) (sp, ptrs)) log
      (fun r l => r = (strSp sp strs, ptrs ++ ptrsOf start (strChunks sp strs)) ∧
        l = log ++ strChunks sp strs ∧
        (strs ≠ [] → strSp sp strs + userStackMaxAddr < wordSize))
      (fun l => log <+: l ∧ l <+: log ++ strChunks sp strs ∧
        (CutOff start sp strs ∨ Below base l)) := by
  induction strs generalizing sp ptrs log with
  | nil =>
    refine ends_pure ⟨?_, (List.append_nil log).symm, fun h => absurd rfl h⟩
    rw [strSp, strChunks, ptrsOf, List.map_nil, List.append_nil]
  | cons s strs ih =>
    rw [List.foldlM_cons]
    refine ((ends_pushString ptrs s).weaken ?_).bind ?_
    · rintro l (⟨herr, rfl⟩ | ⟨hle, hge, hlow⟩)
      · exact ⟨List.prefix_rfl, List.prefix_append .., .inl (.inl herr)⟩
      · refine ⟨hle, hge.trans ⟨strChunks (sp - (s.length + 1)) strs, ?_⟩, .inr (hlow.raise hbase)⟩
        rw [strChunks, List.append_assoc, List.singleton_append]
    · rintro _ _ ⟨rfl, rfl, hword⟩
      refine (ih (sp - (s.length + 1)) _ _).mono ?_ ?_
      · rintro _ _ ⟨rfl, rfl, hnext⟩
        refine ⟨?_, ?_, fun _ => ?_⟩
        · rw [List.append_assoc]
          rfl
        · rw [strChunks, List.append_assoc, List.singleton_append]
        · cases strs with
          | nil => exact hword
          | cons s' strs => exact hnext (List.cons_ne_nil _ _)
      · rintro l ⟨hle, hge, hend⟩
        refine ⟨(List.prefix_append ..).trans hle, ?_, ?_⟩
        · rwa [List.append_assoc, List.singleton_append] at hge
        · by_cases hlow : sp - (s.length + 1) < base
          · exact .inr ((below_emit (by simp) hlow).mono hle)
          · refine hend.imp_left fun hcut => .inr ⟨?_, hcut⟩
            omega

/-- Where no pointer can be computed, what has been stored is in the page. -/
theorem ends_pushStrings_cutOff (hlow : phyMemOffset + pageSize ≤ start) (ptrs : List ℕ)
    (hsp : sp ≤ start) (h : CutOff start sp strs) :
    Ends (strs.foldlM (pushString recordStore start) (sp, ptrs)) log (fun _ _ => False)
      (fun l => ∀ c ∈ l, c ∈ log ∨ start ≤ c.addr + pageSize ∧ c.stop ≤ start) := by
  induction strs generalizing sp ptrs log with
  | nil => exact h.elim
  | cons s strs ih =>
    rw [List.foldlM_cons, pushString_eq]
    rcases h with ⟨e, herr⟩ | ⟨hin, hcut⟩
    · rw [herr]
      exact fun c hc => .inl hc
    · cases hplace : placeString start sp s with
      | error e => exact fun c hc => .inl hc
      | ok r =>
        obtain ⟨rfl, -⟩ := placeString_eq_ok hplace
        have hpos : 0 < phyMemOffset := by decide
        refine Ends.bind (R := fun r l => r.1 = sp - (s.length + 1) ∧
          l = log ++ [⟨sp - (s.length + 1), s ++ [0]⟩]) ?_ ?_
        · refine ((ends_recordStore _ _).weaken ?_).bind ?_
          · rintro l ⟨-, hfault⟩
            dsimp only at hfault
            omega
          · rintro _ _ rfl
            exact ends_pure ⟨rfl, rfl⟩
        · rintro ⟨u, ptrs'⟩ _ ⟨rfl, rfl⟩
          refine (ih ptrs' (by omega) hcut).weaken ?_
          intro l hl c hc
          rcases hl c hc with hc | hc
          · rcases List.mem_append.mp hc with hc | hc
            · exact .inl hc
            · cases List.mem_singleton.mp hc
              refine .inr ⟨hin, ?_⟩
              rw [Chunk.stop, List.length_append, List.length_singleton]
              dsimp only
              omega
          · exact .inr hc

end Strings

section Run

variable {start base : ℕ} {args : List (List Byte)} {log l : List Chunk}

/-- What a run that panics has stored: only what a run that does not panic stores, and some of it
below the page, unless it was cut off at a string or all has been stored. -/
def Stops (base start : ℕ) (auxv : List AuxHeader) (args : List (List Byte)) (l : List Chunk) :
    Prop :=
  l ⊆ stores start auxv args ∧ (Below base l ∨ CutOff start start env ∨
    CutOff start (argTop start) args ∨ ⟨argcSp start auxv args, wordBytes args.length⟩ ∈ l)

/-- Something has been stored below the page, or the stack pointer is still in it. -/
def Held (base sp : ℕ) (log : List Chunk) : Prop := Below base log ∨ base ≤ sp

theorem held_of_mem {sp : ℕ} {bytes : List Byte} (hne : bytes ≠ []) (h : ⟨sp, bytes⟩ ∈ log) :
    Held base sp log := by
  by_cases hlow : sp < base
  · exact .inl ⟨_, h, hne, hlow⟩
  · exact .inr (Nat.le_of_not_lt hlow)

theorem mem_pointerChunks (a : ℕ) (ptrs : List ℕ) :
    ∃ bytes, bytes ≠ [] ∧ ⟨a, bytes⟩ ∈ pointerChunks a ptrs := by
  cases ptrs with
  | nil => exact ⟨wordBytes 0, wordBytes_ne_nil 0, by simp [pointerChunks]⟩
  | cons w ptrs => exact ⟨wordBytes w, wordBytes_ne_nil w, by simp [pointerChunks, wordChunks]⟩

/-! The steps of the code, from a record that is among the stores. A step that panics does so with
the stack pointer below the page. -/

section Steps

variable {α : Type} {sp q a b d : ℕ} {auxv : List AuxHeader} {g : ℕ → Recorded Chunk α}
  {u : Unit → Recorded Chunk α} {Q : α → List Chunk → Prop}
  (hlog : log ⊆ stores start auxv args)

include hlog

theorem Held.stops (h : Held base q log) (hq : ¬base ≤ q) : Stops base start auxv args log :=
  ⟨hlog, .inl (h.resolve_right hq)⟩

theorem Faults.stops {cs : List Chunk} (h : Faults log cs l)
    (hcs : cs ⊆ stores start auxv args) (hbase : phyMemOffset ≤ base) :
    Stops base start auxv args l :=
  ⟨List.Subset.trans h.2.1.subset (List.append_subset.mpr ⟨hlog, hcs⟩), .inl (h.2.2.raise hbase)⟩

theorem ends_sub (hheld : Held base q log) (d : ℕ) (hd : d = a - b) (hle : base ≤ q → b ≤ a)
    (hok : Ends (g d) log Q (Stops base start auxv args)) :
    Ends (liftM (subUsize a b) >>= g) log Q (Stops base start auxv args) := by
  refine ends_sub_bind d hd (fun _ => hok) fun hlt => hheld.stops hlog fun hq => ?_
  exact absurd (hle hq) (Nat.not_le.mpr hlt)

theorem ends_addr (hheld : Held base q log) (haddr : base ≤ q → ¬NoAddr start sp)
    (hok : Ends (g (ptrOf start sp)) log Q (Stops base start auxv args)) :
    Ends (liftM (userAddr start sp) >>= g) log Q (Stops base start auxv args) := by
  refine ends_addr_bind hok fun hno => hheld.stops hlog fun hq => ?_
  exact haddr hq hno

theorem ends_store (hbase : phyMemOffset ≤ base) {bytes : List Byte} (hne : bytes ≠ [])
    (hc : [⟨sp, bytes⟩] ⊆ stores start auxv args)
    (hok : ∀ l, l ⊆ stores start auxv args → Held base sp l → ⟨sp, bytes⟩ ∈ l →
      Ends (u ()) l Q (Stops base start auxv args)) :
    Ends (recordStore sp bytes >>= u) log Q (Stops base start auxv args) := by
  refine ((ends_recordStore sp bytes).weaken ?_).bind ?_
  · rintro _ ⟨rfl, hlow⟩
    exact (faults_emit hne hlow []).stops hlog hc hbase
  · rintro _ _ rfl
    have hmem : ⟨sp, bytes⟩ ∈ log ++ [⟨sp, bytes⟩] := by simp
    exact hok _ (List.append_subset.mpr ⟨hlog, hc⟩) (held_of_mem hne hmem) hmem

theorem ends_words (hbase : phyMemOffset ≤ base) {ws : List ℕ} (hne : ws ≠ [])
    (hcs : wordChunks sp ws ⊆ stores start auxv args)
    (hok : ∀ l, l ⊆ stores start auxv args → Held base sp l →
      Ends (u ()) l Q (Stops base start auxv args)) :
    Ends (writeWords recordStore sp ws >>= u) log Q (Stops base start auxv args) := by
  obtain ⟨w, ws, rfl⟩ := List.exists_cons_of_ne_nil hne
  refine ((ends_writeWords sp (w :: ws)).weaken ?_).bind ?_
  · intro _ hfault
    exact hfault.stops hlog hcs hbase
  · rintro _ _ rfl
    have hmem : ⟨sp, wordBytes w⟩ ∈ log ++ wordChunks sp (w :: ws) := by simp [wordChunks]
    exact hok _ (List.append_subset.mpr ⟨hlog, hcs⟩) (held_of_mem (wordBytes_ne_nil w) hmem)

theorem ends_pointers (hbase : phyMemOffset ≤ base) (hheld : Held base q log) (ptrs : List ℕ)
    (d : ℕ) (hd : d = a - (ptrs.length + 1) * 8) (hle : base ≤ q → (ptrs.length + 1) * 8 ≤ a)
    (hcs : pointerChunks d ptrs ⊆ stores start auxv args)
    (hok : ∀ l, l ⊆ stores start auxv args → Held base d l →
      Ends (g d) l Q (Stops base start auxv args)) :
    Ends (pushPointers recordStore a ptrs >>= g) log Q (Stops base start auxv args) := by
  refine ((ends_pushPointers ptrs hd).weaken ?_).bind ?_
  · rintro _ (⟨hlt, rfl⟩ | hfault)
    · exact hheld.stops hlog fun hq => absurd (hle hq) (Nat.not_le.mpr hlt)
    · exact hfault.stops hlog hcs hbase
  · rintro _ _ ⟨hr, rfl⟩
    rw [hr]
    obtain ⟨bytes, hne, hmem⟩ := mem_pointerChunks d ptrs
    exact hok _ (List.append_subset.mpr ⟨hlog, hcs⟩)
      (held_of_mem hne (List.mem_append_right _ hmem))

end Steps

structure StoreParts (start : ℕ) (auxv : List AuxHeader) (args : List (List Byte)) : Prop where
  env_sub : strChunks start env ⊆ stores start auxv args
  args_sub : strChunks (argTop start) args ⊆ stores start auxv args
  platform_sub : [⟨platformSp start args, platform ++ [0]⟩] ⊆ stores start auxv args
  random_sub : [⟨randomSp start args, random⟩] ⊆ stores start auxv args
  auxv_sub : wordChunks (auxvSp start auxv args) (auxvWords start auxv args) ⊆ stores start auxv args
  envp_sub : pointerChunks (envpSp start auxv args) (envPtrs start) ⊆ stores start auxv args
  argv_sub : pointerChunks (argvSp start auxv args) (argPtrs start args) ⊆ stores start auxv args
  argc_sub : [⟨argcSp start auxv args, wordBytes args.length⟩] ⊆ stores start auxv args

theorem storeParts (start : ℕ) (auxv : List AuxHeader) (args : List (List Byte)) :
    StoreParts start auxv args := by
  constructor <;> · intro c hc; simp only [stores, List.mem_append, hc, true_or, or_true]

/-- A run makes the stores in their order, and stops in the page only if it is cut off. -/
theorem ends_buildBy (phEntrySize entry : ℕ) (args : List (List Byte))
    (hbase : phyMemOffset ≤ base) (hstart : start = base + pageSize) :
    Ends (buildBy recordStore start (elfAuxv phEntrySize entry) args) []
      (fun _ l => l ⊆ stores start (elfAuxv phEntrySize entry) args ∧
        ⟨argcSp start (elfAuxv phEntrySize entry) args, wordBytes args.length⟩ ∈ l)
      (Stops base start (elfAuxv phEntrySize entry) args) := by
  obtain ⟨h₁, h₂, h₃, h₄, h₅, h₆, h₇, h₈, h₉, h₁₀, h₁₁, h₁₂⟩ :=
    descends start (elfAuxv phEntrySize entry) args
  have hparts := storeParts start (elfAuxv phEntrySize entry) args
  have hlow : 0x100000 ≤ base := le_trans (by decide) hbase
  have hmax : userStackMaxAddr = 0x10000000 := rfl
  have henv : strSp start env = start - 200 := strSp_env
  have htop : argTop start = strSp start env - strSp start env % 8 := rfl
  have hinTop : base ≤ argTop start := by
    simp only [pageSize] at hstart
    omega
  unfold buildBy
  refine ((ends_pushStrings hbase hstart env start [] []).weaken ?_).bind ?_
  · rintro l ⟨-, hl, hend⟩
    exact ⟨List.Subset.trans hl.subset hparts.env_sub, hend.elim (.inr ∘ .inl) .inl⟩
  rintro _ _ ⟨rfl, rfl, hword⟩
  have hword := hword (by rw [← List.length_pos_iff, length_env]; decide)
  have hnoAddr : ∀ sp, NoAddr start sp → sp ≤ strSp start env → ¬base ≤ sp + 0x10000 := by
    rintro sp (hlt | hlt) hle hge
    · simp only [pageSize] at hstart
      omega
    · omega
  refine ends_sub_bind (argTop start) rfl (fun _ => ?_) fun h => absurd h (by omega)
  refine ((ends_pushStrings hbase hstart args (argTop start) [] _).weaken ?_).bind ?_
  · rintro l ⟨-, hl, hend⟩
    exact ⟨List.Subset.trans hl.subset (List.append_subset.mpr ⟨hparts.env_sub, hparts.args_sub⟩),
      hend.elim (.inr ∘ .inr ∘ .inl) .inl⟩
  rintro _ _ ⟨rfl, rfl, -⟩
  have hlog := List.append_subset.mpr ⟨hparts.env_sub, hparts.args_sub⟩
  have hheld : Held base (argSp start args)
      ([] ++ strChunks start env ++ strChunks (argTop start) args) := by
    by_cases hsp : argSp start args < base
    · obtain ⟨c, hc, hcs⟩ := below_strChunks hsp hinTop
      exact .inl ⟨c, List.mem_append_right _ hc, hcs⟩
    · exact .inr (Nat.le_of_not_lt hsp)
  have hcount : base ≤ argSp start args → args.length ≤ 4096 := by
    intro hsp
    have hpos : 0 < argSp start args := by omega
    have hsum : argSp start args + args.length ≤ argTop start := strSp_add_length hpos
    simp only [pageSize] at hstart
    omega
  refine ends_sub hlog hheld (argSp start args - argSp start args % 8) rfl
    (fun _ => Nat.mod_le ..) ?_
  refine ends_sub hlog hheld (platformTop start args) rfl (fun hq => ?_) ?_
  · rw [length_platform]
    omega
  refine ends_sub hlog hheld (platformSp start args) rfl (fun _ => Nat.mod_le ..) ?_
  refine ends_store hlog hbase (by simp) hparts.platform_sub fun l hlog hheld _ => ?_
  refine ends_sub hlog hheld (randomSp start args) rfl (fun hq => by omega) ?_
  refine ends_addr hlog hheld (fun hq hno => hnoAddr _ hno (by omega) ?_) ?_
  · have hrandom : randomSp start args = platformSp start args - 16 := rfl
    omega
  refine ends_store hlog hbase (by decide) hparts.random_sub fun l hlog hheld _ => ?_
  refine ends_sub hlog hheld (auxvTop start args) rfl (fun _ => Nat.mod_le ..) ?_
  have hauxvTop : auxvTop start args = randomSp start args - randomSp start args % 16 := rfl
  have hauxv : auxvSp start (elfAuxv phEntrySize entry) args = auxvTop start args - 19 * 16 := rfl
  have henvp : envpSp start (elfAuxv phEntrySize entry) args =
      auxvSp start (elfAuxv phEntrySize entry) args - (14 + 1) * 8 := by
    rw [← length_env]
    rfl
  have hargv : argvSp start (elfAuxv phEntrySize entry) args =
      envpSp start (elfAuxv phEntrySize entry) args - (args.length + 1) * 8 := rfl
  have hargc : argcSp start (elfAuxv phEntrySize entry) args =
      argvSp start (elfAuxv phEntrySize entry) args - 8 := rfl
  refine ends_sub hlog hheld (auxvSp start (elfAuxv phEntrySize entry) args) rfl (fun hq => ?_) ?_
  · change 19 * 16 ≤ _
    omega
  refine ends_addr hlog hheld (fun hq hno => hnoAddr _ hno (by omega) (by omega)) ?_
  have hwords : (fullAuxv (elfAuxv phEntrySize entry) (ptrOf start (randomSp start args))
      (([] ++ ptrsOf start (strChunks (argTop start) args) ++ [0]).headD 0)).flatMap
        AuxHeader.words = auxvWords start (elfAuxv phEntrySize entry) args := rfl
  have hne : auxvWords start (elfAuxv phEntrySize entry) args ≠ [] := List.cons_ne_nil _ _
  have hauxvSub := hparts.auxv_sub
  have henvpSub := hparts.envp_sub
  have hargvSub := hparts.argv_sub
  rw [hwords]
  -- the unifier would look into the addresses
  generalize auxvWords start (elfAuxv phEntrySize entry) args = ws at hne hauxvSub ⊢
  generalize auxvSp start (elfAuxv phEntrySize entry) args = auxvAt at *
  generalize envpSp start (elfAuxv phEntrySize entry) args = envpAt at *
  generalize argvSp start (elfAuxv phEntrySize entry) args = argvAt at *
  refine ends_words hlog hbase hne hauxvSub fun l hlog hheld => ?_
  refine ends_pointers hlog hbase hheld (envPtrs start) envpAt ?_ ?_ henvpSub
    fun l hlog hheld => ?_
  · rw [length_envPtrs, length_env, henvp]
  · rw [length_envPtrs, length_env]
    omega
  refine ends_addr hlog hheld (fun hq hno => hnoAddr _ hno (by omega) (by omega)) ?_
  refine ends_pointers hlog hbase hheld (argPtrs start args) argvAt ?_ ?_ hargvSub
    fun l hlog hheld => ?_
  · rw [length_argPtrs, hargv]
  · rw [length_argPtrs]
    intro hq
    have hn := hcount (by omega)
    omega
  refine ends_addr hlog hheld (fun hq hno => hnoAddr _ hno (by omega) (by omega)) ?_
  refine ends_sub hlog hheld (argcSp start (elfAuxv phEntrySize entry) args) hargc
    (fun hq => by omega) ?_
  refine ends_store hlog hbase (wordBytes_ne_nil _) hparts.argc_sub fun l hlog _ hmem => ?_
  have hstops : Stops base start (elfAuxv phEntrySize entry) args l :=
    ⟨hlog, .inr (.inr (.inr hmem))⟩
  refine Ends.lift_bind (fun _ _ => ?_) fun _ _ => hstops
  refine Ends.lift_bind (fun _ _ => ?_) fun _ _ => hstops
  refine Ends.lift_bind (fun _ _ => ?_) fun _ _ => hstops
  exact ends_pure ⟨hlog, hmem⟩

theorem within_env (hlow : pageSize ≤ start) {c : Chunk} (hc : c ∈ strChunks start env) :
    start ≤ c.addr + pageSize ∧ c.stop ≤ start := by
  have henv : strSp start env = start - 200 := strSp_env
  simp only [pageSize] at hlow ⊢
  have hwithin := (stacked_strChunks (by omega)).within hc
  rw [bottom_strChunks] at hwithin
  omega

theorem ends_of_cutOff (auxv : List AuxHeader) (hlow : phyMemOffset + pageSize ≤ start)
    (h : CutOff start start env ∨ CutOff start (argTop start) args) :
    Ends (buildBy recordStore start auxv args) [] (fun _ _ => False)
      (fun l => ∀ c ∈ l, start ≤ c.addr + pageSize ∧ c.stop ≤ start) := by
  have hpage : pageSize ≤ start := by omega
  unfold buildBy
  by_cases hcut : CutOff start start env
  · refine Ends.bind (R := fun _ _ => False) ?_ fun _ _ hfalse => hfalse.elim
    refine (ends_pushStrings_cutOff hlow [] le_rfl hcut).weaken ?_
    intro l hl c hc
    exact (hl c hc).resolve_left (List.not_mem_nil)
  · replace h := h.resolve_left hcut
    obtain ⟨base, rfl⟩ := Nat.exists_eq_add_of_le' hpage
    have hbase : phyMemOffset ≤ base := by omega
    refine ((ends_pushStrings hbase rfl env _ [] []).weaken ?_).bind ?_
    · rintro l ⟨-, hl, hend⟩ c hc
      exact within_env hpage (hl.subset hc)
    · rintro _ _ ⟨rfl, rfl, -⟩
      have htop : argTop (base + pageSize) ≤ base + pageSize := (Nat.sub_le ..).trans strSp_le
      refine ends_sub_bind (argTop (base + pageSize)) rfl (fun _ => ?_) fun h =>
        absurd h (Nat.not_lt.mpr (Nat.mod_le ..))
      refine Ends.bind (R := fun _ _ => False) ?_ fun _ _ hfalse => hfalse.elim
      refine (ends_pushStrings_cutOff hlow [] htop h).weaken ?_
      intro l hl c hc
      exact (hl c hc).elim (within_env hpage) id

end Run

def StoresInside (f : Frame) (cs : List Chunk) : Prop :=
  ∀ c ∈ cs, ∀ a, c.Covers a →
    f.paddr + phyMemOffset ≤ a ∧ a < f.paddr + phyMemOffset + pageSize

section Inside

variable {f : Frame} {cs : List Chunk}

theorem storesInside_of_within
    (h : ∀ c ∈ cs, f.paddr + phyMemOffset ≤ c.addr ∧ c.stop ≤ f.paddr + phyMemOffset + pageSize) :
    StoresInside f cs := by
  rintro c hc a ⟨hlow, hhigh⟩
  have hin := h c hc
  exact ⟨hin.1.trans hlow, hhigh.trans_le hin.2⟩

theorem StoresInside.le_addr (h : StoresInside f cs) {c : Chunk} (hc : c ∈ cs)
    (hne : c.bytes ≠ []) : f.paddr + phyMemOffset ≤ c.addr :=
  (h c hc c.addr ⟨le_rfl, Nat.lt_add_of_pos_right (List.length_pos_iff.mpr hne)⟩).1

theorem StoresInside.not_below (h : StoresInside f cs) : ¬Below (f.paddr + phyMemOffset) cs := by
  rintro ⟨c, hc, hne, hlow⟩
  exact absurd (h.le_addr hc hne) (Nat.not_le.mpr hlow)

/-- The stores stay in the page exactly if all of them fit into it, or the run is cut off at a
string for which no pointer can be computed. -/
theorem storesMade_inside_iff {start phEntrySize entry : ℕ} {args : List (List Byte)}
    (hstart : userSpStart f = .ok start) :
    StoresInside f (storesMade start (elfAuxv phEntrySize entry) args) ↔
      start ≤ argcSp start (elfAuxv phEntrySize entry) args + pageSize ∨
        CutOff start start env ∨ CutOff start (argTop start) args := by
  obtain ⟨base, hbase⟩ : ∃ base, base = f.paddr + phyMemOffset := ⟨_, rfl⟩
  obtain rfl : start = base + pageSize := by rw [hbase, sumUsize_eq_ok hstart]
  have hlow : phyMemOffset ≤ base := by omega
  have hends := (ends_buildBy phEntrySize entry args hlow rfl).record
  constructor
  · intro hin
    have hargc : ⟨argcSp (base + pageSize) (elfAuxv phEntrySize entry) args,
        wordBytes args.length⟩ ∈ storesMade (base + pageSize) (elfAuxv phEntrySize entry) args →
        base + pageSize ≤ argcSp (base + pageSize) (elfAuxv phEntrySize entry) args + pageSize := by
      intro hmem
      have hle := hin.le_addr hmem (wordBytes_ne_nil _)
      dsimp only at hle
      omega
    rcases hends with ⟨-, -, hmem⟩ | ⟨-, hbelow | hcut | hcut | hmem⟩
    · exact .inl (hargc hmem)
    · exact absurd (hbase ▸ hbelow) hin.not_below
    · exact .inr (.inl hcut)
    · exact .inr (.inr hcut)
    · exact .inl (hargc hmem)
  · intro h
    apply storesInside_of_within
    rw [← hbase]
    rcases h with hfits | hcut
    · intro c hc
      have hsub : storesMade (base + pageSize) (elfAuxv phEntrySize entry) args ⊆
          stores (base + pageSize) (elfAuxv phEntrySize entry) args := by
        rcases hends with ⟨-, hsub, -⟩ | ⟨hsub, -⟩
        · exact hsub
        · exact hsub
      have hpos : 0 < phyMemOffset := by decide
      have hwithin := within_stores (by omega) (hsub hc)
      omega
    · have hend := (ends_of_cutOff (elfAuxv phEntrySize entry) (by omega) hcut).record
      intro c hc
      rcases hend with ⟨-, hfalse⟩ | hend
      · exact hfalse.elim
      · have hwithin := hend c hc
        omega

/-- The task `ls` on a page of the memory of the machine. -/
theorem storesMade_inside_ls :
    userSpStart 0x80000 = .ok 0xffffffd880001000 ∧
      StoresInside 0x80000 (storesMade 0xffffffd880001000 (elfAuxv 56 0x1000) [asBytes "ls"]) := by
  have hstart : userSpStart 0x80000 = .ok 0xffffffd880001000 := by decide +kernel
  refine ⟨hstart, (storesMade_inside_iff hstart).mpr (.inl ?_)⟩
  decide +kernel

/-- An argument of 5000 bytes is stored below the page. -/
theorem long_argument_not_inside :
    userSpStart 0x80000 = .ok 0xffffffd880001000 ∧
      ¬StoresInside 0x80000
        (storesMade 0xffffffd880001000 (elfAuxv 56 0x1000) [List.replicate 5000 0x61]) := by
  refine ⟨by decide +kernel, fun hin => hin.not_below ?_⟩
  have hany : (storesMade 0xffffffd880001000 (elfAuxv 56 0x1000) [List.replicate 5000 0x61]).any
      (fun c => c.bytes ≠ [] ∧ c.addr < Frame.paddr 0x80000 + phyMemOffset) = true := by
    decide +kernel
  obtain ⟨c, hc, hlow⟩ := List.any_eq_true.mp hany
  exact ⟨c, hc, of_decide_eq_true hlow⟩

end Inside

end UserStack

end Zinix
