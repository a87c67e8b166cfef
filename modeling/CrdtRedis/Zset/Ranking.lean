import CrdtRedis.Zset.Skiplist
import Mathlib.Data.List.Sort

/-!
# What a sorted set is

A sorted set gives each of its members a score and lists them by score, members of one score by
name. `Ranking` is that list. It is determined by the scores (`Ranking.ext_score`), and the two
changes of a sorted set, a new score for a member and a member less, change the scores as they would
those of a plain map (`score_set`, `score_erase`).
-/

namespace CrdtRedis

variable {S : Type}

/-- The member of a key. -/
def keyEle (k : Key S) : Sds := (ofLex k).2

/-- The score of a key. -/
def keyScore (k : Key S) : S := (ofLex k).1

variable [LinearOrder S]

/-- Members with their scores, in order. -/
structure Ranking (S : Type) [LinearOrder S] where
  keys : List (Key S)
  sorted : keys.Pairwise (· ≤ ·)
  eles : (keys.map keyEle).Nodup

namespace Ranking

variable {R R' : Ranking S} {ele ele' : Sds} {s : S} {k : Key S}

/-- The score of a member. -/
def score (R : Ranking S) (ele : Sds) : Option S :=
  (R.keys.find? fun k => keyEle k = ele).map keyScore

/-- The place of a member, from 0. -/
def rank (R : Ranking S) (ele : Sds) : Option ℕ := R.keys.findIdx? fun k => keyEle k = ele

/-- The member with the greatest score. -/
def max (R : Ranking S) : Option (Key S) := R.keys.getLast?

/-- The empty sorted set. -/
def empty : Ranking S := ⟨[], List.Pairwise.nil, List.nodup_nil⟩

theorem eles_filter (R : Ranking S) (p : Key S → Bool) : ((R.keys.filter p).map keyEle).Nodup :=
  R.eles.sublist (List.filter_sublist.map keyEle)

/-- Without a member. -/
def erase (R : Ranking S) (ele : Sds) : Ranking S where
  keys := R.keys.filter fun k => keyEle k ≠ ele
  sorted := R.sorted.sublist List.filter_sublist
  eles := R.eles_filter _

theorem eles_insert (h : ele ∉ R.keys.map keyEle) :
    ((R.keys.orderedInsert (· ≤ ·) (toLex (s, ele))).map keyEle).Nodup := by
  rw [((List.perm_orderedInsert (· ≤ ·) (toLex (s, ele)) R.keys).map keyEle).nodup_iff]
  exact List.nodup_cons.mpr ⟨h, R.eles⟩

theorem ele_notMem_erase (R : Ranking S) (ele : Sds) : ele ∉ (R.erase ele).keys.map keyEle := by
  simp [erase]

/-- With a score for a member. -/
def set (R : Ranking S) (ele : Sds) (s : S) : Ranking S where
  keys := (R.erase ele).keys.orderedInsert (· ≤ ·) (toLex (s, ele))
  sorted := (R.erase ele).sorted.orderedInsert _ _
  eles := eles_insert (R.ele_notMem_erase ele)

/-- A member has one key. -/
theorem key_unique (R : Ranking S) {k k' : Key S} (hk : k ∈ R.keys) (hk' : k' ∈ R.keys)
    (h : keyEle k = keyEle k') : k = k' :=
  List.inj_on_of_nodup_map R.eles hk hk' h

theorem score_eq_some : R.score ele = some s ↔ toLex (s, ele) ∈ R.keys := by
  constructor
  · intro h
    obtain ⟨k, hk, rfl⟩ := Option.map_eq_some_iff.mp h
    have he : keyEle k = ele := by simpa using List.find?_some hk
    rw [← he]
    exact List.mem_of_find?_eq_some hk
  · intro h
    have hsome : (R.keys.find? fun k => keyEle k = ele).isSome := by
      rw [List.find?_isSome]
      exact ⟨_, h, by simp [keyEle]⟩
    obtain ⟨k, hk⟩ := Option.isSome_iff_exists.mp hsome
    have he : keyEle k = ele := by simpa using List.find?_some hk
    rw [score, hk, R.key_unique (List.mem_of_find?_eq_some hk) h he]
    rfl

theorem score_eq_none : R.score ele = none ↔ ele ∉ R.keys.map keyEle := by
  rw [score, Option.map_eq_none_iff, List.find?_eq_none, List.mem_map]
  simp

theorem keys_nodup (R : Ranking S) : R.keys.Nodup := R.eles.of_map

/-- The same members in one order are the same list. -/
theorem ext_perm (h : R.keys.Perm R'.keys) : R = R' := by
  have := h.eq_of_pairwise' R.sorted R'.sorted
  cases R
  cases R'
  simpa using this

/-- A sorted set is determined by the scores. -/
theorem ext_score (h : ∀ ele, R.score ele = R'.score ele) : R = R' := by
  refine ext_perm ((List.perm_ext_iff_of_nodup R.keys_nodup R'.keys_nodup).mpr fun k => ?_)
  rw [show k = toLex (keyScore k, keyEle k) from rfl, ← score_eq_some, ← score_eq_some, h]

theorem score_erase : (R.erase ele).score ele' = if ele' = ele then none else R.score ele' := by
  split
  · rename_i h
    subst h
    exact score_eq_none.mpr (R.ele_notMem_erase _)
  · rename_i h
    ext s
    rw [score_eq_some, score_eq_some, erase, List.mem_filter]
    simp [keyEle, h]

theorem score_set : (R.set ele s).score ele' = if ele' = ele then some s else R.score ele' := by
  have hmem : ∀ s', toLex (s', ele') ∈ (R.set ele s).keys ↔
      toLex (s', ele') = toLex (s, ele) ∨ toLex (s', ele') ∈ (R.erase ele).keys := fun s' =>
    List.mem_orderedInsert _
  ext s'
  rw [score_eq_some, hmem, ← score_eq_some, score_erase]
  split
  · rename_i h
    subst h
    simp [eq_comm]
  · rename_i h
    simp [h]

theorem set_perm (R : Ranking S) (ele : Sds) (s : S) :
    (R.set ele s).keys.Perm (toLex (s, ele) :: (R.erase ele).keys) :=
  List.perm_orderedInsert ..

/-- The other members, in any order. -/
theorem erase_perm {K : List (Key S)} (h : R.keys.Perm (k :: K)) :
    (R.erase (keyEle k)).keys.Perm K := by
  have hn : keyEle k ∉ K.map keyEle :=
    (List.nodup_cons.mp ((h.map keyEle).nodup_iff.mp R.eles)).1
  have hf : (k :: K).filter (fun k' => keyEle k' ≠ keyEle k) = K := by
    rw [List.filter_cons_of_neg (by simp), List.filter_eq_self]
    intro k' hk'
    simp only [ne_eq, decide_eq_true_eq]
    exact fun he => hn (he ▸ List.mem_map_of_mem hk')
  exact (h.filter _).trans (by rw [hf])

theorem erase_of_score_none (h : R.score ele = none) : R.erase ele = R := by
  refine ext_score fun ele' => ?_
  rw [score_erase]
  split
  · rename_i he
    rw [he, h]
  · rfl

/-- Setting a score twice, or the score that is there. -/
theorem set_of_score (h : R.score ele = some s) : R.set ele s = R := by
  refine ext_score fun ele' => ?_
  rw [score_set]
  split
  · rename_i he
    rw [he, h]
  · rfl

/-- The greatest member is a member and no other is above it. -/
theorem max_eq_some (h : R.max = some k) : k ∈ R.keys ∧ ∀ k' ∈ R.keys, k' ≤ k := by
  obtain ⟨ys, hys⟩ := List.getLast?_eq_some_iff.mp h
  refine ⟨by rw [hys]; simp, fun k' hk' => ?_⟩
  have hs := R.sorted
  rw [hys] at hs hk'
  rcases List.mem_append.mp hk' with hk' | hk'
  · exact (List.pairwise_append.mp hs).2.2 k' hk' k (by simp)
  · exact (List.mem_singleton.mp hk').le

end Ranking

end CrdtRedis
