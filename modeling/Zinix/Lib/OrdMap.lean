import Mathlib.Tactic

/-!
# Maps

An ordered map is kept as the list of its entries in ascending order of the keys. A total
map is a function that is changed at one place at a time.
-/

namespace Zinix

section ReplaceAt

variable {α β : Type} [DecidableEq α] {f : α → β} {a x : α} {b : β}

/-- A function changed at one place. There is no cast in it as in `Function.update`,
so that long chains of changes can be evaluated. -/
def replaceAt (f : α → β) (a : α) (b : β) : α → β := fun x => if x = a then b else f x

@[simp] theorem replaceAt_self : replaceAt f a b a = b := if_pos rfl

theorem replaceAt_of_ne (h : x ≠ a) : replaceAt f a b x = f x := if_neg h

@[simp] theorem replaceAt_replaceAt (c : β) :
    replaceAt (replaceAt f a b) a c = replaceAt f a c := by
  funext x
  by_cases h : x = a
  · simp [h]
  · simp [replaceAt_of_ne h]

theorem replaceAt_eq_self (h : f a = b) : replaceAt f a b = f := by
  funext x
  by_cases hx : x = a
  · rw [hx, replaceAt_self, h]
  · rw [replaceAt_of_ne hx]

theorem replaceAt_apply : replaceAt f a b x = if x = a then b else f x := rfl

end ReplaceAt

structure OrdMap (β : Type) where
  entries : List (ℕ × β)
  sorted : entries.Pairwise (fun a b => a.1 < b.1)

namespace OrdMap

variable {β γ : Type} {m : OrdMap β} {k : ℕ} {b : β}

instance : EmptyCollection (OrdMap β) := ⟨⟨[], List.Pairwise.nil⟩⟩

instance : Inhabited (OrdMap β) := ⟨∅⟩

def get? (m : OrdMap β) (k : ℕ) : Option β := (m.entries.find? (fun e => e.1 = k)).map Prod.snd

def contains (m : OrdMap β) (k : ℕ) : Bool := (m.get? k).isSome

/-- Stores a value, in place of the one that was there under the key. -/
def insert (m : OrdMap β) (k : ℕ) (b : β) : OrdMap β where
  entries := m.entries.filter (fun e => e.1 < k) ++ (k, b) :: m.entries.filter (fun e => k < e.1)
  sorted := by
    refine List.pairwise_append.mpr ⟨m.sorted.filter _, ?_, ?_⟩
    · refine List.pairwise_cons.mpr ⟨?_, m.sorted.filter _⟩
      intro e he
      simpa using (List.mem_filter.mp he).2
    · intro e he e' he'
      have hlt : e.1 < k := by simpa using (List.mem_filter.mp he).2
      rcases List.mem_cons.mp he' with rfl | he'
      · exact hlt
      · have hgt : k < e'.1 := by simpa using (List.mem_filter.mp he').2
        omega

def filter (m : OrdMap β) (p : ℕ → Bool) : OrdMap β where
  entries := m.entries.filter (fun e => p e.1)
  sorted := m.sorted.filter _

/-- The entries with keys in `[lo, hi)`, in order. -/
def range (m : OrdMap β) (lo hi : ℕ) : List (ℕ × β) :=
  m.entries.filter (fun e => lo ≤ e.1 ∧ e.1 < hi)

theorem keys_nodup (m : OrdMap β) : (m.entries.map Prod.fst).Nodup := by
  refine List.pairwise_map.mpr (m.sorted.imp ?_)
  intro a b hab
  exact ne_of_lt hab

theorem mem_unique {b b' : β} (h : (k, b) ∈ m.entries) (h' : (k, b') ∈ m.entries) : b = b' :=
  congrArg Prod.snd (List.inj_on_of_nodup_map m.keys_nodup h h' rfl)

theorem get?_eq_some : m.get? k = some b ↔ (k, b) ∈ m.entries := by
  constructor
  · intro h
    obtain ⟨e, he, rfl⟩ := Option.map_eq_some_iff.mp h
    have hk : e.1 = k := by simpa using List.find?_some he
    subst hk
    exact List.mem_of_find?_eq_some he
  · intro h
    obtain ⟨e, he⟩ : ∃ e, m.entries.find? (fun e => e.1 = k) = some e := by
      rw [← Option.isSome_iff_exists, List.find?_isSome]
      exact ⟨(k, b), h, by simp⟩
    have hk : e.1 = k := by simpa using List.find?_some he
    have hmem : (k, e.2) ∈ m.entries := hk ▸ List.mem_of_find?_eq_some he
    rw [get?, he, Option.map_some, mem_unique hmem h]

theorem contains_iff : m.contains k ↔ ∃ b, m.get? k = some b := Option.isSome_iff_exists

theorem contains_eq (m : OrdMap β) (k : ℕ) :
    m.contains k = decide (k ∈ m.entries.map Prod.fst) := by
  rw [Bool.eq_iff_iff, decide_eq_true_iff, contains_iff]
  constructor
  · rintro ⟨b, hb⟩
    exact List.mem_map_of_mem (get?_eq_some.mp hb)
  · intro hk
    obtain ⟨⟨k', b⟩, he, rfl⟩ := List.mem_map.mp hk
    exact ⟨b, get?_eq_some.mpr he⟩

@[ext] theorem ext_get? {m m' : OrdMap β} (h : ∀ k, m.get? k = m'.get? k) : m = m' := by
  have hmem : ∀ e, e ∈ m.entries ↔ e ∈ m'.entries := by
    rintro ⟨k, b⟩
    rw [← get?_eq_some, ← get?_eq_some, h]
  cases m with
  | mk l hl =>
    cases m' with
    | mk l' hl' =>
      have hperm : l.Perm l' := by
        refine (List.perm_ext_iff_of_nodup ?_ ?_).mpr hmem
        · exact hl.imp fun hab heq => absurd (heq ▸ hab) (lt_irrefl _)
        · exact hl'.imp fun hab heq => absurd (heq ▸ hab) (lt_irrefl _)
      have heq : l = l' := by
        refine hperm.eq_of_pairwise ?_ hl hl'
        intro a b _ _ hab hba
        exact absurd hab (not_lt.mpr hba.le)
      subst heq
      rfl

@[simp] theorem get?_empty (k : ℕ) : (∅ : OrdMap β).get? k = none := rfl

@[simp] theorem get?_insert (m : OrdMap β) (k k' : ℕ) (b : β) :
    (m.insert k b).get? k' = if k' = k then some b else m.get? k' := by
  apply Option.ext
  intro c
  rw [get?_eq_some]
  have hmem : (k', c) ∈ (m.insert k b).entries ↔
      (k', c) ∈ m.entries ∧ k' < k ∨ k' = k ∧ c = b ∨ (k', c) ∈ m.entries ∧ k < k' := by
    simp [insert]
  rw [hmem]
  split_ifs with heq
  · subst heq
    simp [eq_comm]
  · rw [get?_eq_some]
    constructor
    · rintro (h | h | h)
      · exact h.1
      · exact absurd h.1 heq
      · exact h.1
    · intro h
      rcases lt_or_gt_of_ne heq with hlt | hgt
      · exact .inl ⟨h, hlt⟩
      · exact .inr (.inr ⟨h, hgt⟩)

@[simp] theorem get?_filter (m : OrdMap β) (p : ℕ → Bool) (k : ℕ) :
    (m.filter p).get? k = if p k then m.get? k else none := by
  apply Option.ext
  intro c
  rw [get?_eq_some]
  have hmem : (k, c) ∈ (m.filter p).entries ↔ (k, c) ∈ m.entries ∧ p k := by
    simp [filter]
  rw [hmem]
  split_ifs with hp
  · rw [get?_eq_some]
    exact and_iff_left hp
  · simp [hp]

theorem mem_range {lo hi : ℕ} {e : ℕ × β} :
    e ∈ m.range lo hi ↔ m.get? e.1 = some e.2 ∧ lo ≤ e.1 ∧ e.1 < hi := by
  rw [get?_eq_some]
  simp [range]

theorem range_sorted (m : OrdMap β) (lo hi : ℕ) :
    (m.range lo hi).Pairwise (fun a b => a.1 < b.1) :=
  m.sorted.filter _

section Find

variable {c : ℕ × β → Bool}
  {lo hi j : ℕ} {d : β}

/-- The first entry that satisfies a condition is the one with the least key. -/
theorem find?_eq_some : m.entries.find? c = some (k, b) ↔
    m.get? k = some b ∧ c (k, b) ∧ ∀ j d, m.get? j = some d → j < k → c (j, d) = false := by
  constructor
  · intro h
    obtain ⟨hc, before, after, heq, hbefore⟩ := List.find?_eq_some_iff_append.mp h
    refine ⟨get?_eq_some.mpr (by rw [heq]; simp), hc, ?_⟩
    intro j d hj hlt
    have hmem := get?_eq_some.mp hj
    have hsorted := m.sorted
    rw [heq] at hmem hsorted
    rcases List.mem_append.mp hmem with hmem | hmem
    · simpa using hbefore _ hmem
    · rcases List.mem_cons.mp hmem with hmem | hmem
      · cases hmem
        omega
      · have := (List.pairwise_cons.mp (List.pairwise_append.mp hsorted).2.1).1 _ hmem
        simp only at this
        omega
  · rintro ⟨hget, hc, hbefore⟩
    obtain ⟨⟨j, d⟩, hj⟩ : ∃ e, m.entries.find? c = some e := by
      rw [← Option.isSome_iff_exists, List.find?_isSome]
      exact ⟨(k, b), get?_eq_some.mp hget, hc⟩
    obtain ⟨hcj, before, after, heq, hnot⟩ := List.find?_eq_some_iff_append.mp hj
    have hgetj : m.get? j = some d := get?_eq_some.mpr (by rw [heq]; simp)
    rcases lt_trichotomy j k with hlt | rfl | hgt
    · rw [hbefore j d hgetj hlt] at hcj
      cases hcj
    · rw [hj]
      rw [hget] at hgetj
      cases hgetj
      rfl
    · have hmem := get?_eq_some.mp hget
      have hsorted := m.sorted
      rw [heq] at hmem hsorted
      rcases List.mem_append.mp hmem with hmem | hmem
      · have := hnot _ hmem
        simp [hc] at this
      · rcases List.mem_cons.mp hmem with hmem | hmem
        · cases hmem
          omega
        · have := (List.pairwise_cons.mp (List.pairwise_append.mp hsorted).2.1).1 _ hmem
          simp only at this
          omega

theorem find?_eq_none : m.entries.find? c = none ↔ ∀ k b, m.get? k = some b → c (k, b) = false := by
  rw [List.find?_eq_none]
  constructor
  · intro h k b hget
    simpa using h _ (get?_eq_some.mp hget)
  · rintro h ⟨k, b⟩ hmem
    simp [h k b (get?_eq_some.mpr hmem)]

theorem le_of_head?_range (h : (m.range lo hi).head? = some (k, b)) (hj : m.get? j = some d)
    (hlo : lo ≤ j) (hhi : j < hi) : k ≤ j := by
  have hmem : (j, d) ∈ m.range lo hi := mem_range.mpr ⟨hj, hlo, hhi⟩
  obtain ⟨rest, hrest⟩ := List.head?_eq_some_iff.mp h
  have hsorted := m.range_sorted lo hi
  rw [hrest] at hmem hsorted
  rcases List.mem_cons.mp hmem with hmem | hmem
  · cases hmem
    exact le_rfl
  · exact ((List.pairwise_cons.mp hsorted).1 _ hmem).le

theorem not_mem_of_head?_range (h : (m.range lo hi).head? = none) (hj : m.get? j = some d)
    (hlo : lo ≤ j) : hi ≤ j := by
  by_contra hlt
  have hmem : (j, d) ∈ m.range lo hi := mem_range.mpr ⟨hj, hlo, by simpa using hlt⟩
  rw [List.head?_eq_none_iff.mp h] at hmem
  cases hmem

end Find

end OrdMap

end Zinix
