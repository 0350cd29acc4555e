import Mathlib.Data.List.DropRight
import Mathlib.Data.Nat.Bitwise
import Mathlib.Tactic
import Zinix.Lib.Cursor

/-!
# The search through the children of a directory

`get_sub_node` walks through the list of its children with a cursor and removes the entries
of dropped inodes on the way. A removal already moves the cursor to the next entry, which
the following `move_next` then skips.
-/

namespace Zinix

variable {live hit : ℕ → Bool}
  {before after : List ℕ} {c m t : ℕ}

/-- The loop of `get_sub_node`, with the entries in front of the cursor and those from
the cursor on. Returns the entry found and the list as it is left. -/
def scan (live hit : ℕ → Bool) : List ℕ → List ℕ → Option ℕ × List ℕ
  | before, [] => (none, before)
  | before, c :: rest =>
    if live c then
      if hit c then (some c, before ++ c :: rest) else scan live hit (before ++ [c]) rest
    else
      match rest with
      | [] => scan live hit [] before
      | d :: rest => scan live hit (before ++ [d]) rest
termination_by before after => (before.length + after.length) ^ 2 + after.length
decreasing_by
  all_goals simp only [List.length_append, List.length_cons, List.length_nil]
  · rw [show before.length + (0 + 1) + rest.length = before.length + (rest.length + 1) by omega]
    omega
  · nlinarith
  · have hle := Nat.pow_le_pow_left (show before.length + (0 + 1) + rest.length ≤
      before.length + (rest.length + 1 + 1) by omega) 2
    omega

/-- Only entries of dropped inodes are removed, and the others keep their order. -/
theorem scan_sublist (before after : List ℕ) :
    (scan live hit before after).2.Sublist (before ++ after) := by
  fun_induction scan live hit before after with
  | case1 before => simp
  | case2 before c rest hlive hhit => exact List.Sublist.refl _
  | case3 before c rest hlive hhit ih => simpa using ih
  | case4 before c hlive ih => exact ih.trans (by simp)
  | case5 before c hlive d rest ih =>
    refine ih.trans ?_
    rw [List.append_assoc]
    exact (List.sublist_cons_self c _).append_left before

theorem mem_scan {j : ℕ} (hj : j ∈ before ++ after) (hlive : live j) :
    j ∈ (scan live hit before after).2 := by
  fun_induction scan live hit before after with
  | case1 before => simpa using hj
  | case2 before c rest hc hhit => exact hj
  | case3 before c rest hc hhit ih => exact ih (by simpa using hj)
  | case4 before c hc ih =>
    have hne : j ≠ c := fun h => hc (h ▸ hlive)
    exact ih (by simpa [hne] using hj)
  | case5 before c hc d rest ih =>
    have hne : j ≠ c := fun h => hc (h ▸ hlive)
    exact ih (by simpa [hne] using hj)

theorem scan_found (h : (scan live hit before after).1 = some c) :
    c ∈ before ++ after ∧ live c ∧ hit c := by
  fun_induction scan live hit before after with
  | case1 before => cases h
  | case2 before d rest hlive hhit =>
    cases h
    exact ⟨by simp, hlive, hhit⟩
  | case3 before d rest hlive hhit ih => simpa using ih h
  | case4 before d hlive ih => exact ⟨by simpa using Or.inl (ih h).1, (ih h).2⟩
  | case5 before d hlive e rest ih =>
    refine ⟨?_, (ih h).2⟩
    have hmem := (ih h).1
    simp only [List.mem_append, List.mem_cons, List.not_mem_nil] at hmem ⊢
    tauto

/-- What the loop of `get_sub_node` does with an entry. -/
def visitChild (live hit : ℕ → Bool) (c : ℕ) : Visit :=
  if live c then
    if hit c then .stop else .pass
  else .remove

/-- The loop of `get_sub_node` over the cursor, for at most `n` turns. -/
def childLoop (live hit : ℕ → Bool) (n : ℕ) (children : List ℕ) : Option (Cursor ℕ) :=
  Cursor.seek (visitChild live hit) n (Cursor.front children)

/-- Where the loop ends, the cursor stands on the entry found, in the list that is left. -/
theorem scan_of_seek {n : ℕ} {c d : Cursor ℕ}
    (h : Cursor.seek (visitChild live hit) n c = some d) :
    scan live hit c.before c.after = (d.current, d.toList) := by
  induction n generalizing c with
  | zero => cases h
  | succ n ih =>
    obtain ⟨before, _ | ⟨x, after⟩⟩ := c
    · cases h
      simp [scan, Cursor.current, Cursor.toList]
    · simp only [Cursor.seek, Cursor.current, List.head?_cons, visitChild] at h
      rw [scan.eq_def]
      by_cases hlive : live x
      · by_cases hhit : hit x
        · simp only [hlive, hhit, if_true, Option.some.injEq] at h
          subst h
          simp [hlive, hhit, Cursor.current, Cursor.toList]
        · simp only [hlive, hhit, if_true, Bool.false_eq_true, if_false] at h
          simpa [hlive, hhit, Cursor.moveNext] using ih h
      · simp only [hlive, Bool.false_eq_true, if_false] at h
        cases after <;> simpa [hlive, Cursor.moveNext, Cursor.removeCurrent] using ih h

/-- The loop ends for every list of children, also when removals at the end of the list carry
the cursor past the end marker and round to the front again. The number of its turns is
bounded by the dead entries and the length of the list. -/
theorem childLoop_ends (live hit : ℕ → Bool) (children : List ℕ) :
    ∃ c, childLoop live hit
        ((children.countP (fun j => !live j) + 1) * (children.length + 1)) children = some c ∧
      scan live hit [] children = (c.current, c.toList) := by
  have hdead : (fun j => decide (visitChild live hit j = .remove)) = fun j => !live j := by
    funext j
    unfold visitChild
    split_ifs with hlive hhit <;> simp [hlive]
  have hends := Cursor.seek_front (visitChild live hit) children
  rw [hdead] at hends
  obtain ⟨c, hc⟩ := Option.isSome_iff_exists.mp hends
  exact ⟨c, hc, scan_of_seek hc⟩

/-- One pass over entries none of which is looked for. The flag says that the entry in
front has just been removed, so that the next one is skipped. -/
def pass (live : ℕ → Bool) : Bool → List ℕ → List ℕ × Bool
  | skip, [] => ([], skip)
  | true, c :: rest => (c :: (pass live false rest).1, (pass live false rest).2)
  | false, c :: rest =>
    if live c then (c :: (pass live false rest).1, (pass live false rest).2)
    else pass live true rest

/-- The search after the entries in front of the cursor have been visited. -/
def resume (live hit : ℕ → Bool) (before : List ℕ) : Bool → List ℕ → Option ℕ × List ℕ
  | false, rest => scan live hit before rest
  | true, [] => scan live hit [] before
  | true, d :: rest => scan live hit (before ++ [d]) rest

theorem scan_cons_dead (hc : live c = false) (before rest : List ℕ) :
    scan live hit before (c :: rest) = resume live hit before true rest := by
  rw [scan.eq_def]
  cases rest <;> simp [hc, resume]

theorem scan_cons_other (hc : live c = true) (hhit : hit c = false) (before rest : List ℕ) :
    scan live hit before (c :: rest) = scan live hit (before ++ [c]) rest := by
  rw [scan.eq_def]
  simp [hc, hhit]

theorem scan_cons_hit (hc : live c = true) (hhit : hit c = true) (before rest : List ℕ) :
    scan live hit before (c :: rest) = (some c, before ++ c :: rest) := by
  rw [scan.eq_def]
  simp [hc, hhit]

theorem resume_append (hit : ℕ → Bool) (skip : Bool) (before A rest : List ℕ)
    (hA : ∀ x ∈ A, live x → hit x = false) :
    resume live hit before skip (A ++ rest) =
      resume live hit (before ++ (pass live skip A).1) (pass live skip A).2 rest := by
  induction A generalizing skip before with
  | nil => simp [pass]
  | cons c A ih =>
    have hA' : ∀ x ∈ A, live x → hit x = false := fun x hx => hA x (List.mem_cons_of_mem _ hx)
    cases skip with
    | true =>
      have hrest := ih false (before ++ [c]) hA'
      simpa [pass, resume] using hrest
    | false =>
      cases hc : live c with
      | true =>
        have hrest := ih false (before ++ [c]) hA'
        rw [List.cons_append, resume, scan_cons_other hc (hA c (List.mem_cons_self ..) hc)]
        simpa [pass, hc, resume] using hrest
      | false =>
        rw [List.cons_append, resume, scan_cons_dead hc, ih true before hA']
        simp [pass, hc]

theorem pass_append (skip : Bool) (A B : List ℕ) :
    pass live skip (A ++ B) =
      ((pass live skip A).1 ++ (pass live (pass live skip A).2 B).1,
        (pass live (pass live skip A).2 B).2) := by
  induction A generalizing skip with
  | nil => rfl
  | cons c A ih =>
    cases skip with
    | true => simp [pass, ih]
    | false => cases hc : live c <;> simp [pass, hc, ih]

theorem pass_sublist (skip : Bool) (A : List ℕ) : (pass live skip A).1.Sublist A := by
  induction A generalizing skip with
  | nil => exact List.Sublist.refl _
  | cons c A ih =>
    cases skip with
    | true => exact (ih false).cons_cons c
    | false =>
      cases hc : live c with
      | true => simpa [pass, hc] using ih false
      | false => simpa [pass, hc] using (ih true).cons c

def Settled (live : ℕ → Bool) (A : List ℕ) : Prop :=
  A = [] ∨ ∃ B c, A = B ++ [c] ∧ live c

theorem pass_settled {A : List ℕ} (h : Settled live A) :
    (pass live false A).2 = false ∧ Settled live (pass live false A).1 := by
  rcases h with rfl | ⟨B, c, rfl, hc⟩
  · exact ⟨rfl, Or.inl rfl⟩
  · rw [pass_append]
    have hlast : ∀ skip, pass live skip [c] = ([c], false) := by
      intro skip
      cases skip <;> simp [pass, hc]
    rw [hlast]
    exact ⟨rfl, Or.inr ⟨_, c, rfl, hc⟩⟩

/-- Of a run of dead entries a pass removes the first, the third and so on. -/
theorem pass_dead (D : List ℕ) (hD : ∀ x ∈ D, live x = false) :
    (pass live false D).1.length = D.length / 2 ∧
      (pass live false D).2 = D.length.testBit 0 := by
  induction D using List.twoStepInduction with
  | nil => exact ⟨rfl, rfl⟩
  | singleton c => simp [pass, hD c (List.mem_singleton_self c)]
  | cons_cons c d D ih _ =>
    have hc := hD c (by simp)
    obtain ⟨hlen, hskip⟩ := ih fun x hx => hD x (by simp [hx])
    constructor
    · simp only [pass, hc, List.length_cons]
      simp
      omega
    · simp only [pass, hc, hskip, List.length_cons, Nat.testBit_zero]
      simp
      omega

/-- With `m` dead entries directly in front of an entry and `t` at the end of the list,
pass `r` takes place if the lower bits of `t` are set, and it sees the entry if
bit `r` of `m` is clear. -/
def Reached (m t : ℕ) : Prop := ∃ r, m.testBit r = false ∧ ∀ q < r, t.testBit q = true

theorem reached_of_even (hm : m.testBit 0 = false) : Reached m t :=
  ⟨0, hm, fun q hq => absurd hq (Nat.not_lt_zero q)⟩

theorem not_reached (hm : m.testBit 0 = true) (ht : t.testBit 0 = false) :
    ¬Reached m t := by
  rintro ⟨r, hr, hlow⟩
  cases r with
  | zero => simp [hm] at hr
  | succ r => simp [hlow 0 (Nat.succ_pos r)] at ht

theorem reached_half (hm : m.testBit 0 = true) (ht : t.testBit 0 = true) :
    Reached m t ↔ Reached (m / 2) (t / 2) := by
  constructor
  · rintro ⟨r, hr, hlow⟩
    cases r with
    | zero => simp [hm] at hr
    | succ r =>
      refine ⟨r, by rwa [Nat.testBit_succ] at hr, fun q hq => ?_⟩
      have hq' := hlow (q + 1) (by omega)
      rwa [Nat.testBit_succ] at hq'
  · rintro ⟨r, hr, hlow⟩
    refine ⟨r + 1, by rwa [Nat.testBit_succ], fun q hq => ?_⟩
    cases q with
    | zero => exact ht
    | succ q =>
      rw [Nat.testBit_succ]
      exact hlow q (by omega)

/-- The search finds a live entry exactly when one of its passes reaches it. -/
theorem scan_parts (hlive : live c) (hhit : hit c) (A D B E : List ℕ) (hA : Settled live A)
    (hB : Settled live B) (hD : ∀ x ∈ D, live x = false) (hE : ∀ x ∈ E, live x = false)
    (hother : ∀ x ∈ A ++ B, live x → hit x = false) :
    (scan live hit [] (A ++ (D ++ c :: (B ++ E)))).1 = some c ↔ Reached D.length E.length := by
  induction hm : D.length using Nat.strong_induction_on generalizing A D B E with
  | h m ih =>
  subst hm
  have hdead : ∀ F : List ℕ, (∀ x ∈ F, live x = false) → ∀ x ∈ F, live x → hit x = false := by
    intro F hF x hx hl
    simp [hF x hx] at hl
  obtain ⟨hAskip, hA'⟩ := pass_settled hA
  obtain ⟨hDlen, hDskip⟩ := pass_dead D hD
  -- the first pass up to the entry
  have hfirst : scan live hit [] (A ++ (D ++ c :: (B ++ E))) =
      resume live hit ((pass live false A).1 ++ (pass live false D).1) (D.length.testBit 0)
        (c :: (B ++ E)) := by
    have hpassA := resume_append hit false [] A (D ++ c :: (B ++ E))
      fun x hx => hother x (List.mem_append_left _ hx)
    rw [hAskip, resume_append hit false _ D _ (hdead D hD), hDskip] at hpassA
    simpa [resume] using hpassA
  rw [hfirst]
  cases hodd : D.length.testBit 0 with
  | false =>
    rw [resume, scan_cons_hit hlive hhit]
    exact iff_of_true rfl (reached_of_even hodd)
  | true =>
    obtain ⟨hBskip, hB'⟩ := pass_settled hB
    obtain ⟨hElen, hEskip⟩ := pass_dead E hE
    -- the entry is skipped, and the pass goes on to the end
    have hlast := resume_append hit false
      ((pass live false A).1 ++ (pass live false D).1 ++ [c]) B E
      fun x hx => hother x (List.mem_append_right _ hx)
    have hend := resume_append hit false
      ((pass live false A).1 ++ (pass live false D).1 ++ [c] ++ (pass live false B).1) E []
      (hdead E hE)
    rw [hBskip] at hlast
    rw [List.append_nil, hEskip] at hend
    rw [resume, show ∀ before rest, scan live hit before rest = resume live hit before false rest
      from fun _ _ => rfl, hlast, hend]
    cases hwrap : E.length.testBit 0 with
    | false =>
      refine iff_of_false ?_ (not_reached hodd hwrap)
      rw [resume, scan]
      simp
    | true =>
      have hsub : ∀ F, (pass live false F).1.Sublist F := fun F => pass_sublist false F
      have hhalf := ih (D.length / 2)
        (by
          have : D.length ≠ 0 := by
            intro h
            simp [h] at hodd
          omega)
        (pass live false A).1 (pass live false D).1 (pass live false B).1 (pass live false E).1
        hA' hB' (fun x hx => hD x ((hsub D).subset hx)) (fun x hx => hE x ((hsub E).subset hx))
        (fun x hx => hother x (((hsub A).append (hsub B)).subset hx)) hDlen
      rw [hElen] at hhalf
      rw [resume, reached_half hodd hwrap, ← hhalf]
      simp

/-- The number of dead entries directly in front of an entry. -/
def deadBefore (live : ℕ → Bool) (c : ℕ) (l : List ℕ) : ℕ :=
  ((l.takeWhile (· != c)).rtakeWhile (fun j => !live j)).length

def deadAtEnd (live : ℕ → Bool) (l : List ℕ) : ℕ := (l.rtakeWhile (fun j => !live j)).length

theorem settled_rdropWhile (l : List ℕ) :
    Settled live (l.rdropWhile (fun j => !live j)) := by
  rcases List.eq_nil_or_concat (l.rdropWhile (fun j => !live j)) with h | ⟨B, c, h⟩
  · exact Or.inl h
  · refine Or.inr ⟨B, c, by simpa using h, ?_⟩
    have hlast := List.rdropWhile_last_not (fun j => !live j) l (by simp [h])
    simpa [h] using hlast

theorem dead_rtakeWhile (l : List ℕ) :
    ∀ x ∈ l.rtakeWhile (fun j => !live j), live x = false := by
  intro x hx
  simpa using List.mem_rtakeWhile_imp hx

theorem rtakeWhile_append_cons (hc : live c) (pre post : List ℕ) :
    (pre ++ c :: post).rtakeWhile (fun j => !live j) = post.rtakeWhile (fun j => !live j) := by
  have hstop : (c :: pre.reverse).takeWhile (fun j => !live j) = [] := by simp [hc]
  simp only [List.rtakeWhile, List.reverse_append, List.reverse_cons, List.append_assoc,
    List.singleton_append]
  rw [List.takeWhile_append]
  split_ifs with hall
  · rw [hstop, List.append_nil]
    rw [( List.takeWhile_prefix _).eq_of_length hall]
  · rfl

/-- A live entry is found exactly if the dead entries in front of it and at the end of
the list stand so that a pass reaches it. -/
theorem scan_eq_some_iff {l : List ℕ} (hmem : c ∈ l) (hnodup : l.Nodup) (hlive : live c)
    (hhit : hit c) (hother : ∀ x ∈ l, x ≠ c → live x → hit x = false) :
    (scan live hit [] l).1 = some c ↔ Reached (deadBefore live c l) (deadAtEnd live l) := by
  obtain ⟨pre, post, rfl⟩ := List.append_of_mem hmem
  have hne : c ∉ pre ∧ c ∉ post := by
    rw [List.nodup_append, List.nodup_cons] at hnodup
    exact ⟨fun h => (hnodup.2.2 c h c (List.mem_cons_self ..)) rfl, hnodup.2.1.1⟩
  have hpre : (pre ++ c :: post).takeWhile (· != c) = pre := by
    have hdiff : ∀ x ∈ pre, (x != c) = true := fun x hx =>
      bne_iff_ne.mpr fun h => hne.1 (h ▸ hx)
    rw [List.takeWhile_append_of_pos hdiff]
    simp
  rw [deadBefore, deadAtEnd, hpre, rtakeWhile_append_cons hlive]
  have hparts := scan_parts hlive hhit (pre.rdropWhile (fun j => !live j))
    (pre.rtakeWhile (fun j => !live j)) (post.rdropWhile (fun j => !live j))
    (post.rtakeWhile (fun j => !live j)) (settled_rdropWhile pre) (settled_rdropWhile post)
    (dead_rtakeWhile pre) (dead_rtakeWhile post) ?_
  · rw [← hparts, List.rdropWhile_append_rtakeWhile, ← List.append_assoc,
      List.rdropWhile_append_rtakeWhile]
  · intro x hx
    rcases List.mem_append.mp hx with hx | hx
    · have hx := ( List.rdropWhile_prefix _ _).subset hx
      exact hother x (by simp [hx]) (fun h => hne.1 (h ▸ hx))
    · have hx := ( List.rdropWhile_prefix _ _).subset hx
      exact hother x (by simp [hx]) (fun h => hne.2 (h ▸ hx))

end Zinix
