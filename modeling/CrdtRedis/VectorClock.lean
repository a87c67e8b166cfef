import Mathlib.Data.Finset.Lattice.Fold
import Mathlib.Data.List.FinRange
import Mathlib.Tactic

/-!
# Vector clocks (`vector_clock.h`, `vector_clock.c`)

A clock (`Vc`) has one entry for each replica and the id of the replica it belongs to. The entry
and id types are parameters: `Clock n` is the clock of a system of `n` replicas, whose entries
count from zero and whose id is one of the replicas. `RawVc` is a clock of any size, as it lies in
memory.

* `vcUpdate` is the join of the pointwise order (`vcUpdate_vector`), `vcEqual` is equality of the
  entries (`vcEqual_iff`).
* `vcCmp` compares in the pointwise order and falls back to the ids when the clocks are
  concurrent (`vcCmp_of_lt`, `vcCmp_of_gt`, `vcCmp_of_concurrent`). With equal ids the scans find
  no answer, and two concurrent clocks are ordered by their first different entry. With different
  ids the answer is exact (`vcCmp_classification`).
* `vcCausallyReady` is the delivery test of causal broadcast.
-/

namespace CrdtRedis

/-- `vc`: the entries and the id. -/
@[ext] structure Vc (α ι : Type) (n : ℕ) where
  vector : Fin n → α
  id : ι

instance {α ι : Type} {n : ℕ} [DecidableEq α] [DecidableEq ι] : DecidableEq (Vc α ι n) :=
  fun _ _ => decidable_of_iff _ Vc.ext_iff.symm

/-- A clock of a system of `n` replicas. -/
abbrev Clock (n : ℕ) := Vc ℕ (Fin n) n

/-- `vc` in memory: the entries that are allocated, `size` of them, and the id. -/
structure RawVc where
  vector : List ℤ
  id : ℤ
  deriving DecidableEq

def VC_LESS : ℤ := -2
def VC_C_LESS : ℤ := -1
def VC_CMP_ERR : ℤ := 0
def VC_C_GREATER : ℤ := 1
def VC_GREATER : ℤ := 2

section

variable {α ι : Type} {n : ℕ} [LinearOrder α] [LinearOrder ι]

/-- `vc_equal`. -/
def vcEqual (c₁ c₂ : Vc α ι n) : Bool := decide (∀ i, c₁.vector i = c₂.vector i)

/-- `vc_update`: the entries of `m` that are larger are copied, the id stays. -/
def vcUpdate (tar m : Vc α ι n) : Vc α ι n :=
  { tar with vector := fun i => if tar.vector i < m.vector i then m.vector i else tar.vector i }

/-- The first index at which the entries differ. -/
def firstDiff (a b : Fin n → α) : Option (Fin n) := (List.finRange n).find? fun i => a i ≠ b i

/-- The order of the ids, as the scans of `vc_cmp` return it; equal ids do not end the scan. -/
def cmpIds (c₁ c₂ : Vc α ι n) : Option ℤ :=
  if c₂.id < c₁.id then some VC_C_GREATER else if c₁.id < c₂.id then some VC_C_LESS else none

/-- `vc_cmp`: find the first difference, then scan the rest for one in the other direction. -/
def vcCmp (c₁ c₂ : Vc α ι n) : ℤ :=
  match firstDiff c₁.vector c₂.vector with
  | none => (cmpIds c₁ c₂).getD VC_CMP_ERR
  | some i =>
    let rest := (List.finRange n).filter (i < ·)
    if c₂.vector i < c₁.vector i then
      (rest.findSome? fun j => if c₁.vector j < c₂.vector j then cmpIds c₁ c₂ else none).getD
        VC_GREATER
    else if c₁.vector i < c₂.vector i then
      (rest.findSome? fun j => if c₂.vector j < c₁.vector j then cmpIds c₁ c₂ else none).getD
        VC_LESS
    else VC_CMP_ERR

end

section

variable {n : ℕ}

/-- `vc_new`, at replica `r`. -/
def vcNew (r : Fin n) : Clock n := ⟨fun _ => 0, r⟩

/-- `vc_inc`, at replica `r`. -/
def vcInc (c : Clock n) (r : Fin n) : Clock n :=
  ⟨Function.update c.vector r (c.vector r + 1), r⟩

/-- `vc_now`: the next clock; `c` does not change. -/
def vcNow (c : Clock n) : Clock n :=
  { c with vector := Function.update c.vector c.id (c.vector c.id + 1) }

/-- `vc_causally_ready`. -/
def vcCausallyReady (current next : Clock n) : Bool :=
  decide (∀ i, i ≠ next.id → next.vector i ≤ current.vector i) &&
    next.vector next.id == current.vector next.id + 1

end

/-! ## The pointwise order -/

section

variable {α ι : Type} {n : ℕ} [LinearOrder α] [LinearOrder ι] {c₁ c₂ : Vc α ι n}

omit [LinearOrder ι] in
@[simp] theorem vcUpdate_vector (tar m : Vc α ι n) :
    (vcUpdate tar m).vector = tar.vector ⊔ m.vector := by
  funext i
  simp only [vcUpdate, Pi.sup_apply]
  split
  · rename_i h; exact (sup_eq_right.mpr h.le).symm
  · rename_i h; exact (sup_eq_left.mpr (not_lt.mp h)).symm

omit [LinearOrder ι] in
@[simp] theorem vcUpdate_id (tar m : Vc α ι n) : (vcUpdate tar m).id = tar.id := rfl

omit [LinearOrder ι] in
theorem vcEqual_iff : vcEqual c₁ c₂ = true ↔ c₁.vector = c₂.vector := by
  simp [vcEqual, funext_iff]

theorem firstDiff_eq_none {a b : Fin n → α} : firstDiff a b = none ↔ a = b := by
  simp [firstDiff, funext_iff]

/-- Up to the first difference the entries are equal. -/
theorem firstDiff_eq_some {a b : Fin n → α} {i : Fin n} (h : firstDiff a b = some i) :
    a i ≠ b i ∧ ∀ j < i, a j = b j := by
  refine ⟨by simpa using List.find?_some h, fun j hj => ?_⟩
  obtain ⟨-, as, bs, hl, has⟩ := List.find?_eq_some_iff_append.mp h
  have hj' : j ∈ as := by
    have hmem : j ∈ as ++ i :: bs := hl ▸ List.mem_finRange j
    have hsort : (as ++ i :: bs).Pairwise (· < ·) := hl ▸ List.pairwise_lt_finRange n
    rcases List.mem_append.mp hmem with h1 | h1
    · exact h1
    · rcases List.mem_cons.mp h1 with rfl | h2
      · exact absurd hj (lt_irrefl _)
      · have := (List.pairwise_cons.mp (List.pairwise_append.mp hsort).2.1).1 j h2
        exact absurd hj (not_lt.mpr this.le)
  simpa using has j hj'

/-- A scan that returns the same answer at every hit. -/
theorem findSome?_ite {β γ : Type} (l : List β) (p : β → Prop) [DecidablePred p] (x : Option γ) :
    (l.findSome? fun j => if p j then x else none) = if ∃ j ∈ l, p j then x else none := by
  induction l with
  | nil => simp
  | cons b l ih =>
    rw [List.findSome?_cons, ih]
    by_cases hb : p b
    · cases x <;> simp [hb]
    · simp [hb]

/-- A clock strictly below another in the pointwise order. -/
theorem vcCmp_of_lt (h : c₁.vector < c₂.vector) : vcCmp c₁ c₂ = VC_LESS := by
  have hle := h.le
  cases hd : firstDiff c₁.vector c₂.vector with
  | none => exact absurd (firstDiff_eq_none.mp hd) h.ne
  | some i =>
    have hi : c₁.vector i < c₂.vector i := lt_of_le_of_ne (hle i) (firstDiff_eq_some hd).1
    simp only [vcCmp, hd, if_neg (not_lt.mpr hi.le), if_pos hi, findSome?_ite]
    rw [if_neg]
    · rfl
    · rintro ⟨j, -, hj⟩
      exact absurd (hle j) (not_le.mpr hj)

theorem vcCmp_of_gt (h : c₂.vector < c₁.vector) : vcCmp c₁ c₂ = VC_GREATER := by
  have hle := h.le
  cases hd : firstDiff c₁.vector c₂.vector with
  | none => exact absurd (firstDiff_eq_none.mp hd) h.ne'
  | some i =>
    have hi : c₂.vector i < c₁.vector i := lt_of_le_of_ne (hle i) (firstDiff_eq_some hd).1.symm
    simp only [vcCmp, hd, if_pos hi, findSome?_ite]
    rw [if_neg]
    · rfl
    · rintro ⟨j, -, hj⟩
      exact absurd (hle j) (not_le.mpr hj)

/-- Two clocks neither of which is strictly below the other, with different ids, are ordered by
their ids. -/
theorem vcCmp_of_concurrent (h₁ : ¬ c₁.vector < c₂.vector) (h₂ : ¬ c₂.vector < c₁.vector)
    (hid : c₁.id ≠ c₂.id) :
    vcCmp c₁ c₂ = if c₁.id < c₂.id then VC_C_LESS else VC_C_GREATER := by
  have hids : cmpIds c₁ c₂ = some (if c₁.id < c₂.id then VC_C_LESS else VC_C_GREATER) := by
    rcases lt_or_gt_of_ne hid with h | h
    · simp [cmpIds, h, not_lt.mpr h.le]
    · simp [cmpIds, h, not_lt.mpr h.le]
  cases hd : firstDiff c₁.vector c₂.vector with
  | none => simp [vcCmp, hd, hids]
  | some i =>
    obtain ⟨hne, hlt⟩ := firstDiff_eq_some hd
    -- Past the first difference there is one in the other direction.
    have hrest : ∀ {a b : Fin n → α}, (∀ j < i, a j = b j) → b i < a i → ¬ b < a →
        ∃ j ∈ (List.finRange n).filter (i < ·), a j < b j := by
      intro a b hpre hi hnlt
      have hnle : ¬ b ≤ a := fun hle => hnlt (lt_of_le_of_ne hle fun e => by simp [e] at hi)
      obtain ⟨j, hj⟩ := not_forall.mp hnle
      have hj' : a j < b j := not_le.mp hj
      have hij : i < j := by
        rcases lt_trichotomy j i with hji | rfl | hij
        · exact absurd (hpre j hji) hj'.ne
        · exact absurd hi (not_lt.mpr hj'.le)
        · exact hij
      exact ⟨j, by simpa using hij, hj'⟩
    rcases lt_or_gt_of_ne hne with hi | hi
    · have := hrest (fun j hj => (hlt j hj).symm) hi h₁
      simp only [vcCmp, hd, if_neg (not_lt.mpr hi.le), if_pos hi, findSome?_ite]
      rw [if_pos this, hids]; rfl
    · have := hrest hlt hi h₂
      simp only [vcCmp, hd, if_pos hi, findSome?_ite]
      rw [if_pos this, hids]; rfl

/-- `vc_cmp` answers `VC_LESS` exactly on the pointwise order, if two clocks with one id are
comparable. -/
theorem vcCmp_eq_less (h : c₁.id = c₂.id → c₁.vector ≤ c₂.vector ∨ c₂.vector ≤ c₁.vector) :
    vcCmp c₁ c₂ = VC_LESS ↔ c₁.vector < c₂.vector := by
  refine ⟨fun hc => ?_, vcCmp_of_lt⟩
  by_contra hlt
  by_cases hgt : c₂.vector < c₁.vector
  · rw [vcCmp_of_gt hgt] at hc
    exact absurd hc (by decide)
  · by_cases hid : c₁.id = c₂.id
    · have heq : c₁.vector = c₂.vector := by
        rcases h hid with hle | hle
        · exact hle.eq_of_not_lt hlt
        · exact (hle.eq_of_not_lt hgt).symm
      simp [vcCmp, firstDiff_eq_none.mpr heq, cmpIds, hid, VC_CMP_ERR, VC_LESS] at hc
    · rw [vcCmp_of_concurrent hlt hgt hid] at hc
      split at hc <;> exact absurd hc (by decide)

theorem vcCmp_swap (hid : c₁.id ≠ c₂.id) : vcCmp c₂ c₁ = -vcCmp c₁ c₂ := by
  by_cases hlt : c₁.vector < c₂.vector
  · rw [vcCmp_of_lt hlt, vcCmp_of_gt hlt]
    rfl
  · by_cases hgt : c₂.vector < c₁.vector
    · rw [vcCmp_of_lt hgt, vcCmp_of_gt hgt]
      rfl
    · rw [vcCmp_of_concurrent hlt hgt hid, vcCmp_of_concurrent hgt hlt hid.symm]
      rcases lt_or_gt_of_ne hid with h | h
      · rw [if_neg h.not_gt, if_pos h]
        rfl
      · rw [if_pos h, if_neg h.not_gt]
        rfl

theorem vcCmp_eq_greater (hid : c₁.id ≠ c₂.id) :
    vcCmp c₁ c₂ = VC_GREATER ↔ c₂.vector < c₁.vector := by
  rw [vcCmp_swap hid.symm, ← vcCmp_eq_less fun h => absurd h.symm hid, neg_eq_iff_eq_neg]
  rfl

/-- `vc_cmp` of two clocks with different ids tells the pointwise order of the entries, and the
order of the ids where there is none; `vc_update` is the join of that order. -/
theorem vcCmp_classification (a b : Vc α ι n) :
    (a.id ≠ b.id →
      (vcCmp a b = VC_LESS ↔ (∀ i, a.vector i ≤ b.vector i) ∧ a.vector ≠ b.vector) ∧
      (vcCmp a b = VC_GREATER ↔ (∀ i, b.vector i ≤ a.vector i) ∧ a.vector ≠ b.vector) ∧
      (vcCmp a b ≠ VC_LESS → vcCmp a b ≠ VC_GREATER →
        vcCmp a b = if a.id < b.id then VC_C_LESS else VC_C_GREATER) ∧
      vcCmp b a = -vcCmp a b) ∧
    IsLUB {a.vector, b.vector} (vcUpdate a b).vector ∧ (vcUpdate a b).id = a.id := by
  refine ⟨fun hid => ?_, ?_, vcUpdate_id a b⟩
  · have hless : vcCmp a b = VC_LESS ↔ a.vector < b.vector :=
      vcCmp_eq_less fun h => absurd h hid
    have hgreater := vcCmp_eq_greater hid
    refine ⟨?_, ?_, fun hl hg => ?_, vcCmp_swap hid⟩
    · rw [hless, lt_iff_le_and_ne, Pi.le_def]
    · rw [hgreater, lt_iff_le_and_ne, Pi.le_def, ne_comm]
    · exact vcCmp_of_concurrent (mt hless.mpr hl) (mt hgreater.mpr hg) hid
  · rw [vcUpdate_vector]
    exact isLUB_pair

end

/-- Two concurrent clocks of three replicas. -/
theorem vcCmp_classification_concurrent :
    (0 : ℤ) ≠ 2 ∧
      vcCmp (n := 3) ⟨![-1, 4, 0], (2 : ℤ)⟩ ⟨![-1, (3 : ℤ), 5], 0⟩ =
        -vcCmp (n := 3) ⟨![-1, (3 : ℤ), 5], 0⟩ ⟨![-1, 4, 0], (2 : ℤ)⟩ :=
  ⟨by decide,
    ((vcCmp_classification (n := 3) ⟨![-1, (3 : ℤ), 5], (0 : ℤ)⟩ ⟨![-1, 4, 0], 2⟩).1
      (by decide)).2.2.2⟩

/-! ## Clocks of a system -/

section

variable {n : ℕ}

@[simp] theorem vcNew_vector (r : Fin n) : (vcNew r).vector = 0 := rfl
@[simp] theorem vcNew_id (r : Fin n) : (vcNew r).id = r := rfl
@[simp] theorem vcNow_id (c : Clock n) : (vcNow c).id = c.id := rfl

theorem vcNow_self (c : Clock n) : (vcNow c).vector c.id = c.vector c.id + 1 := by simp [vcNow]

theorem vcNow_ne (c : Clock n) {i : Fin n} (h : i ≠ c.id) : (vcNow c).vector i = c.vector i := by
  simp [vcNow, h]

theorem lt_vcNow (c : Clock n) : c.vector < (vcNow c).vector := by
  refine Pi.lt_def.mpr ⟨fun i => ?_, c.id, by simp [vcNow]⟩
  by_cases h : i = c.id
  · subst h; simp [vcNow]
  · simp [vcNow_ne c h]

end

end CrdtRedis
