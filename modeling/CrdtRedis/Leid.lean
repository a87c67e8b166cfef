import Mathlib.Data.List.Lex
import Mathlib.Data.Prod.Lex
import CrdtRedis.VectorClock

/-!
# Identifiers of list elements (`list_basics.h`, `list_basics.c`)

An identifier (`Leid`) is a sequence of positions. `leidCmp` compares the first positions that
differ, and the lengths if there are none: it is the lexicographic order (`leidCmp_lt_zero`).
`constructLeid` makes a new identifier between two neighbours of the list, either of which may be
missing.

* `lt_constructLeid`, `constructLeid_lt`: the new identifier is above its left neighbour, and below
  its right neighbour if that was made in the same way (`Leid.Wf`).
* `constructLeid_last`: its last position has the id and the sum of the entries of the clock, which
  makes identifiers unique.
-/

namespace CrdtRedis

def BASE : ℤ := 2 ^ 24
def RDM_STEP : ℤ := 128

/-- `position`. -/
@[ext] structure Position where
  pos : ℤ
  pid : ℤ
  count : ℤ
  deriving DecidableEq

/-- `pos_cmp`. -/
def posCmp (p₁ p₂ : Position) : ℤ :=
  if p₁.pos ≠ p₂.pos then p₁.pos - p₂.pos
  else if p₁.pid ≠ p₂.pid then p₁.pid - p₂.pid
  else p₁.count - p₂.count

/-- `leid`: the positions; `num` is their number. -/
abbrev Leid := List Position

/-- `leid_cmp`. -/
def leidCmp : Leid → Leid → ℤ
  | a :: as, b :: bs => if posCmp a b ≠ 0 then posCmp a b else leidCmp as bs
  | as, bs => (as.length : ℤ) - bs.length

/-- `lprefix`. -/
def lprefix (p : Option Leid) (i : ℕ) : ℤ := ((p.bind (·[i]?)).map Position.pos).getD 0

/-- `rprefix`. -/
def rprefix (p : Option Leid) (i : ℕ) : ℤ := ((p.bind (·[i]?)).map Position.pos).getD BASE

/-- The search of `constructLeid` for a level with room, from level `i`. -/
def searchLevel (p q : Option Leid) : ℕ → ℕ → ℕ
  | 0, i => i
  | f + 1, i => if rprefix q i - lprefix p i < 2 then searchLevel p q f (i + 1) else i

/-- The level of the new last position: past both ends there is room. -/
def newLevel (p q : Option Leid) : ℕ :=
  searchLevel p q (max ((p.map List.length).getD 0) ((q.map List.length).getD 0)) 0

/-- The random part of the new position. -/
def newStep (room : ℤ) (rand : ℕ) : ℤ :=
  if room = 0 then 0 else if room < RDM_STEP then rand % room else rand % RDM_STEP

/-- `constructLeid`; `rand` is what `rand()` returns. -/
def constructLeid {n : ℕ} (p q : Option Leid) (t : Clock n) (rand : ℕ) : Leid :=
  let index := newLevel p q
  let left := lprefix p index
  let right := rprefix q index
  (List.range index).map (fun i => (p.bind (·[i]?)).getD ⟨0, 0, 0⟩) ++
    [⟨left + newStep (right - left - 2) rand + 1, (t.id : ℕ), ((∑ i, t.vector i : ℕ) : ℤ)⟩]

/-! ## The order -/

/-- The order of `pos_cmp`. -/
def Position.key (p : Position) : ℤ ×ₗ (ℤ ×ₗ ℤ) := toLex (p.pos, toLex (p.pid, p.count))

theorem Position.key_injective : Function.Injective Position.key := by
  intro p q h
  simpa [Position.key, Position.ext_iff] using h

theorem posCmp_lt_zero {p q : Position} : posCmp p q < 0 ↔ p.key < q.key := by
  simp only [posCmp, Position.key, Prod.Lex.toLex_lt_toLex]
  split
  · omega
  · split <;> omega

theorem posCmp_eq_zero {p q : Position} : posCmp p q = 0 ↔ p = q := by
  simp only [posCmp, Position.ext_iff]
  split
  · omega
  · split <;> omega

/-- The order of `leid_cmp`. -/
def Leid.key (p : Leid) : List (ℤ ×ₗ (ℤ ×ₗ ℤ)) := p.map Position.key

theorem Leid.key_injective : Function.Injective Leid.key :=
  List.map_injective_iff.mpr Position.key_injective

theorem leidCmp_lt_zero {p q : Leid} : leidCmp p q < 0 ↔ p.key < q.key := by
  induction p generalizing q with
  | nil =>
    cases q with
    | nil => simp [leidCmp, Leid.key]
    | cons b q => simp [leidCmp, Leid.key]; omega
  | cons a p ih =>
    cases q with
    | nil => simp [leidCmp, Leid.key]; omega
    | cons b q =>
      simp only [leidCmp, Leid.key, List.map_cons, List.cons_lt_cons_iff]
      by_cases h : posCmp a b = 0
      · obtain rfl := posCmp_eq_zero.mp h
        simpa [h, Leid.key] using ih
      · have hne : a.key ≠ b.key := fun hk =>
          h (posCmp_eq_zero.mpr (Position.key_injective hk))
        simp [h, posCmp_lt_zero, hne]

theorem leidCmp_eq_zero {p q : Leid} : leidCmp p q = 0 ↔ p = q := by
  induction p generalizing q with
  | nil =>
    cases q with
    | nil => simp [leidCmp]
    | cons b q => simp [leidCmp]; omega
  | cons a p ih =>
    cases q with
    | nil => simp [leidCmp]; omega
    | cons b q =>
      by_cases h : posCmp a b = 0
      · obtain rfl := posCmp_eq_zero.mp h
        simp [leidCmp, h, ih]
      · have hne : a ≠ b := fun hab => h (posCmp_eq_zero.mpr hab)
        simp [leidCmp, h, hne]

theorem leidCmp_pos {p q : Leid} : 0 < leidCmp p q ↔ q.key < p.key := by
  have h₁ := leidCmp_lt_zero (p := p) (q := q)
  have h₂ := leidCmp_eq_zero (p := p) (q := q)
  rcases lt_trichotomy p.key q.key with h | h | h
  · exact ⟨fun hp => absurd (h₁.mpr h) (by omega), fun hq => absurd h hq.asymm⟩
  · have : leidCmp p q = 0 := h₂.mpr (Leid.key_injective h)
    simp [this, h]
  · have hne : leidCmp p q ≠ 0 := fun h0 => by rw [h₂.mp h0] at h; exact lt_irrefl _ h
    have hnlt : ¬ leidCmp p q < 0 := fun hlt => (h₁.mp hlt).asymm h
    exact ⟨fun _ => h, fun _ => by omega⟩

/-! ## New identifiers -/

section

variable {n : ℕ} {p q : Option Leid} {t : Clock n} {rand : ℕ}

theorem searchLevel_spec {f i : ℕ}
    (h : ∀ k, i + f ≤ k → ¬ rprefix q k - lprefix p k < 2) :
    ¬ rprefix q (searchLevel p q f i) - lprefix p (searchLevel p q f i) < 2 := by
  induction f generalizing i with
  | zero => exact h i (by omega)
  | succ f ih =>
    simp only [searchLevel]
    split
    · exact ih fun k hk => h k (by omega)
    · assumption

theorem prefix_of_le {p : Leid} {k : ℕ} (h : p.length ≤ k) :
    lprefix (some p) k = 0 ∧ rprefix (some p) k = BASE := by
  unfold lprefix rprefix
  simp [h]

/-- Past both ends there is room. -/
theorem room_past (p q : Option Leid) {k : ℕ}
    (hk : max ((p.map List.length).getD 0) ((q.map List.length).getD 0) ≤ k) :
    ¬ rprefix q k - lprefix p k < 2 := by
  have hl : lprefix p k = 0 := by
    cases p with
    | none => rfl
    | some p => exact (prefix_of_le (by simp at hk; omega)).1
  have hr : rprefix q k = BASE := by
    cases q with
    | none => rfl
    | some q => exact (prefix_of_le (by simp at hk; omega)).2
  rw [hl, hr]; decide

/-- The search ends at a level with room. -/
theorem newLevel_spec (p q : Option Leid) :
    ¬ rprefix q (newLevel p q) - lprefix p (newLevel p q) < 2 :=
  searchLevel_spec fun _ hk => room_past p q (by omega)

/-- Every level before the one where the search ends has no room. -/
theorem lt_searchLevel {f i k : ℕ} (hik : i ≤ k) (hk : k < searchLevel p q f i) :
    rprefix q k - lprefix p k < 2 := by
  induction f generalizing i with
  | zero => exact absurd hk (by simp only [searchLevel]; omega)
  | succ f ih =>
    simp only [searchLevel] at hk
    split at hk
    · rename_i hroom
      rcases eq_or_lt_of_le hik with rfl | hik
      · exact hroom
      · exact ih hik hk
    · omega

/-- The level of the new position is the first with room. -/
theorem newLevel_lt_iff {k : ℕ} :
    newLevel p q < k ↔ ∃ i < k, ¬ rprefix q i - lprefix p i < 2 := by
  refine ⟨fun h => ⟨_, h, newLevel_spec p q⟩, ?_⟩
  rintro ⟨i, hi, hroom⟩
  by_contra hge
  exact hroom (lt_searchLevel (Nat.zero_le i) (show i < newLevel p q by omega))

theorem constructLeid_length (p q : Option Leid) (t : Clock n) (rand : ℕ) :
    (constructLeid p q t rand).length = newLevel p q + 1 := by
  simp [constructLeid]

/-- There is room between the neighbours at a level that the decoder's buffer has. -/
def RoomInBuffer (left right : Option Leid) : Prop :=
  ∃ i < 1024, 2 ≤ rprefix right i - lprefix left i

/-- **A new identifier fits the decoder's buffer exactly if there is room at one of its levels.** -/
theorem constructLeid_fits {t : Clock n} {rand : ℕ} :
    (constructLeid p q t rand).length ≤ 1024 ↔ RoomInBuffer p q := by
  rw [constructLeid_length, Nat.succ_le_iff, newLevel_lt_iff]
  simp only [RoomInBuffer, not_lt]

/-- Neighbours that leave one position of the buffer free leave room. -/
theorem roomInBuffer_of_length (hp : ∀ x ∈ p, x.length < 1024) (hq : ∀ x ∈ q, x.length < 1024) :
    RoomInBuffer p q := by
  refine ⟨1023, by decide, not_lt.mp (room_past p q (max_le ?_ ?_))⟩
  · cases p with
    | none => simp
    | some p => exact Nat.le_of_lt_succ (hp p rfl)
  · cases q with
    | none => simp
    | some q => exact Nat.le_of_lt_succ (hq q rfl)

theorem newStep_nonneg (room : ℤ) (rand : ℕ) : 0 ≤ newStep room rand := by
  unfold newStep
  split
  · exact le_rfl
  · split
    · exact Int.emod_nonneg _ (by assumption)
    · exact Int.emod_nonneg _ (by decide)

/-- The last position carries the clock. -/
theorem constructLeid_last (p q : Option Leid) (t : Clock n) (rand : ℕ) :
    ∃ l x, constructLeid p q t rand = l ++ [⟨x, (t.id : ℕ), ((∑ i, t.vector i : ℕ) : ℤ)⟩] :=
  ⟨_, _, rfl⟩

/-- Identifiers of clocks with different ids or sums differ. -/
theorem constructLeid_inj {p' q' : Option Leid} {t' : Clock n} {rand' : ℕ}
    (h : constructLeid p q t rand = constructLeid p' q' t' rand') :
    t.id = t'.id ∧ ∑ i, t.vector i = ∑ i, t'.vector i := by
  obtain ⟨l, x, hl⟩ := constructLeid_last p q t rand
  obtain ⟨l', x', hl'⟩ := constructLeid_last p' q' t' rand'
  rw [hl, hl'] at h
  have h' := (List.append_inj' h rfl).2
  simp only [List.cons.injEq, Position.mk.injEq, and_true] at h'
  exact ⟨Fin.ext (by omega), by omega⟩

/-- A copy of `p` up to level `k`, padded with zeros, that ends above `p`'s position there. -/
theorem lt_copy_append (p : Leid) (k : ℕ) {x : Position} (hx : lprefix (some p) k < x.pos) :
    p.key < Leid.key ((List.range k).map (fun i => p[i]?.getD ⟨0, 0, 0⟩) ++ [x]) := by
  induction p generalizing k with
  | nil => cases k <;> simp [Leid.key, List.range_succ_eq_map]
  | cons a p ih =>
    cases k with
    | zero =>
      have ha : a.pos < x.pos := hx
      exact List.cons_lt_cons_iff.mpr (.inl (Prod.Lex.toLex_lt_toLex.mpr (.inl ha)))
    | succ k =>
      have := ih k hx
      simpa [Leid.key, List.range_succ_eq_map, Function.comp_def] using this

/-- The new identifier is above its left neighbour. -/
theorem lt_constructLeid {p : Leid} : p.key < (constructLeid (some p) q t rand).key := by
  refine lt_copy_append p _ ?_
  simp only
  generalize rprefix q (newLevel (some p) q) - lprefix (some p) (newLevel (some p) q) - 2 = room
  have hstep := newStep_nonneg room rand
  omega

/-- An identifier without negative numbers, whose last position is positive. -/
structure Leid.Wf (p : Leid) : Prop where
  nonneg : ∀ x ∈ p, 0 ≤ x.pos ∧ 0 ≤ x.pid ∧ 0 ≤ x.count
  last : ∃ l x, p = l ++ [x] ∧ 0 < x.pos

theorem Leid.Wf.tail {b : Position} {q : Leid} (h : Leid.Wf (b :: q)) (hq : q ≠ []) :
    Leid.Wf q := by
  refine ⟨fun x hx => h.nonneg x (List.mem_cons_of_mem _ hx), ?_⟩
  obtain ⟨l, x, heq, hx⟩ := h.last
  cases l with
  | nil => exact absurd (List.cons.inj heq).2 hq
  | cons a l => exact ⟨l, x, (List.cons.inj heq).2, hx⟩

/-- The position of the padding is the least one. -/
theorem Position.zero_lt {x : Position} (h : 0 ≤ x.pos ∧ 0 ≤ x.pid ∧ 0 ≤ x.count)
    (hne : x ≠ ⟨0, 0, 0⟩) : (⟨0, 0, 0⟩ : Position).key < x.key := by
  simp only [Position.key, Prod.Lex.toLex_lt_toLex]
  simp only [ne_eq, Position.ext_iff] at hne
  omega

/-- A copy of `p`, which is below `q`, that ends below `q`'s position there. -/
theorem copy_append_lt (p : Leid) {q : Leid} (k : ℕ) (hlt : p.key < q.key) (hq : q.Wf)
    {x : Position} (hx : x.pos < rprefix (some q) k) :
    Leid.key ((List.range k).map (fun i => p[i]?.getD ⟨0, 0, 0⟩) ++ [x]) < q.key := by
  induction k generalizing p q with
  | zero =>
    cases q with
    | nil => exact absurd hlt (List.not_lt_nil _)
    | cons b q =>
      have hb : x.pos < b.pos := hx
      exact List.cons_lt_cons_iff.mpr (.inl (Prod.Lex.toLex_lt_toLex.mpr (.inl hb)))
  | succ k ih =>
    cases q with
    | nil => exact absurd hlt (List.not_lt_nil _)
    | cons b q =>
      have hx' : x.pos < rprefix (some q) k := hx
      cases p with
      | nil =>
        -- The padding is below `b`, or equal to it and `q` goes on.
        have hrest : Leid.key ((List.range (k + 1)).map (fun i => ([] : Leid)[i]?.getD ⟨0, 0, 0⟩) ++
            [x]) = (⟨0, 0, 0⟩ : Position).key ::
              Leid.key ((List.range k).map (fun i => ([] : Leid)[i]?.getD ⟨0, 0, 0⟩) ++ [x]) := by
          simp [Leid.key, List.range_succ_eq_map, Function.comp_def]
        rw [hrest]
        refine List.cons_lt_cons_iff.mpr ?_
        by_cases hb : b = ⟨0, 0, 0⟩
        · have hne : q ≠ [] := by
            rintro rfl
            obtain ⟨l, y, heq, hy⟩ := hq.last
            obtain ⟨-, hby⟩ := List.append_inj' (show [] ++ [b] = l ++ [y] from heq) rfl
            simp [← List.singleton_inj.mp hby, hb] at hy
          refine .inr ⟨by rw [hb], ih [] ?_ (hq.tail hne) hx'⟩
          cases q with
          | nil => exact absurd rfl hne
          | cons c q => exact List.nil_lt_cons _ _
        · exact .inl (Position.zero_lt (hq.nonneg b (by simp)) hb)
      | cons a p =>
        have hrest : Leid.key ((List.range (k + 1)).map (fun i => (a :: p)[i]?.getD ⟨0, 0, 0⟩) ++
            [x]) =
            a.key :: Leid.key ((List.range k).map (fun i => p[i]?.getD ⟨0, 0, 0⟩) ++ [x]) := by
          simp [Leid.key, List.range_succ_eq_map, Function.comp_def]
        rw [hrest]
        refine List.cons_lt_cons_iff.mpr ((List.cons_lt_cons_iff.mp hlt).imp_right ?_)
        rintro ⟨hab, hpq⟩
        have hne : q ≠ [] := by rintro rfl; exact List.not_lt_nil _ hpq
        exact ⟨hab, ih p hpq (hq.tail hne) hx'⟩

theorem newStep_le {room : ℤ} (h : 0 ≤ room) (rand : ℕ) : newStep room rand ≤ room := by
  unfold newStep
  split
  · exact h
  · split
    · exact (Int.emod_lt_of_pos _ (by omega)).le
    · exact (Int.emod_lt_of_pos _ (by decide)).le.trans (not_lt.mp (by assumption))

/-- A copy of the left neighbour, which may be missing, is below the right one. -/
theorem copy_lt {p : Option Leid} {q : Leid} {k : ℕ} {x : Position}
    (hlt : ∀ y ∈ p, y.key < q.key) (hq : q.Wf) (hx : x.pos < rprefix (some q) k) :
    Leid.key ((List.range k).map (fun i => (p.bind (·[i]?)).getD ⟨0, 0, 0⟩) ++ [x]) < q.key := by
  have hcopy : (fun i : ℕ => (p.bind (·[i]?)).getD ⟨0, 0, 0⟩) =
      fun i => (p.getD [])[i]?.getD (⟨0, 0, 0⟩ : Position) := by
    funext i
    cases p <;> simp
  rw [hcopy]
  refine copy_append_lt (p.getD []) k ?_ hq hx
  cases p with
  | none =>
    obtain ⟨l, x, rfl, -⟩ := hq.last
    cases l <;> exact List.nil_lt_cons _ _
  | some y => exact hlt y rfl

/-- The new identifier is below its right neighbour. -/
theorem constructLeid_lt {p : Option Leid} {q : Leid} (hlt : ∀ y ∈ p, y.key < q.key) (hq : q.Wf) :
    (constructLeid p (some q) t rand).key < q.key := by
  refine copy_lt hlt hq ?_
  have hroom := newLevel_spec p (some q)
  simp only
  generalize rprefix (some q) (newLevel p (some q)) = right at *
  generalize lprefix p (newLevel p (some q)) = left at *
  have := newStep_le (show 0 ≤ right - left - 2 by omega) rand
  omega

/-- What is copied is a position of the left neighbour or the padding. -/
theorem mem_copy {k : ℕ} {x : Position}
    (hx : x ∈ (List.range k).map fun i => (p.bind (·[i]?)).getD ⟨0, 0, 0⟩) :
    x = ⟨0, 0, 0⟩ ∨ ∃ y ∈ p, x ∈ y := by
  obtain ⟨i, -, rfl⟩ := List.mem_map.mp hx
  cases hi : (p.bind (·[i]?)) with
  | none => exact .inl rfl
  | some x =>
    obtain ⟨y, rfl, hy⟩ := Option.bind_eq_some_iff.mp hi
    exact .inr ⟨y, rfl, List.mem_of_getElem? hy⟩

theorem lprefix_nonneg (hp : ∀ y ∈ p, Leid.Wf y) (k : ℕ) : 0 ≤ lprefix p k := by
  unfold lprefix
  cases hx : (p.bind (·[k]?)) with
  | none => simp
  | some x =>
    obtain ⟨y, rfl, hy⟩ := Option.bind_eq_some_iff.mp hx
    simpa using ((hp y rfl).nonneg x (List.mem_of_getElem? hy)).1

theorem constructLeid_wf (hp : ∀ y ∈ p, Leid.Wf y) : Leid.Wf (constructLeid p q t rand) := by
  have hleft := lprefix_nonneg hp (newLevel p q)
  have hpos : ∀ room, 0 < lprefix p (newLevel p q) + newStep room rand + 1 := fun room => by
    have hstep := newStep_nonneg room rand
    omega
  refine ⟨fun x hx => ?_, _, _, rfl, hpos _⟩
  rcases List.mem_append.mp hx with hx | hx
  · rcases mem_copy hx with rfl | ⟨y, hy, hxy⟩
    · exact ⟨le_rfl, le_rfl, le_rfl⟩
    · exact (hp y hy).nonneg x hxy
  · rw [List.mem_singleton.mp hx]
    exact ⟨(hpos _).le, Int.natCast_nonneg _, Int.natCast_nonneg _⟩

/-! ## The count of a clock -/

theorem sum_succ (v : Fin n → ℕ) (r : Fin n) :
    ∑ q, Function.update v r (v r + 1) q = ∑ q, v q + 1 := by
  rw [Finset.sum_update_of_mem (Finset.mem_univ _), ← Finset.add_sum_erase _ _ (Finset.mem_univ r),
    Finset.sdiff_singleton_eq_erase]
  omega

theorem sum_vcNow (c : Clock n) : ∑ q, (vcNow c).vector q = ∑ q, c.vector q + 1 :=
  sum_succ c.vector c.id

theorem sum_vcInc (c : Clock n) (r : Fin n) : ∑ q, (vcInc c r).vector q = ∑ q, c.vector q + 1 :=
  sum_succ c.vector r

end

end CrdtRedis
