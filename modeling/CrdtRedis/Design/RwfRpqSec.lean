import CrdtRedis.Broadcast.Algorithm
import CrdtRedis.Design.RwfRpq

/-!
# Strong eventual consistency of the RWF design (`rwf_rpq.tla`)

Every run of the design is one of the code, so that what the code is known to converge to decides
the sets of a process.

* `rwf_sec`: the invariant `SEC` of the design, and the assertion of its macro `Remove`, for every
  number of processes and bound.

The code has one clock for an element. In the design an element that was never removed has no record
in `t_set`, and one with a record has a history that is not all zeros (`HistPos`).
-/

namespace CrdtRedis

open Broadcast

namespace RwfRpq

variable {n : ℕ} {e : Sds}

/-- `SEC`. -/
def SEC (d : Design.St (Fin n) (Loc n) (Op n)) : Prop :=
  ∀ p₁ p₂, p₁ ≠ p₂ ∧ d.ops p₁ = d.ops p₂ →
    (d.loc p₁).e_set = (d.loc p₂).e_set ∧ (d.loc p₁).t_set = (d.loc p₂).t_set

/-! ## Histories are not zero -/

/-- No history has a negative entry, and each has a positive one. -/
def HistPos (s : Loc n) : Prop := ∀ y ∈ s.t_set, (∀ j, 0 ≤ y.t j) ∧ ∃ j, 0 < y.t j

theorem HistPos.rh_nonneg {s : Loc n} (h : HistPos s) (e : Sds) (j : Fin n) :
    0 ≤ rh s.t_set e j := by
  rw [rh]
  split
  · rename_i hex
    obtain ⟨y, hy, -⟩ := hex
    have hmem : Classical.epsilon (· ∈ Hist.t '' s.t_set) ∈ Hist.t '' s.t_set :=
      Classical.epsilon_spec (p := (· ∈ Hist.t '' s.t_set)) ⟨y.t, y, hy, rfl⟩
    obtain ⟨z, hz, heq⟩ := hmem
    rw [← heq]
    exact (h z hz).1 j
  · exact le_rfl

theorem le_maxRh (a b : Rh n) (j : Fin n) : a j ≤ maxRh a b j ∧ b j ≤ maxRh a b j := by
  simp only [maxRh]
  split <;> omega

/-- A history that has something new is joined with the stored one. -/
theorem HistPos.join {s : Loc n} (h : HistPos s) {e : Sds} {rhp : Rh n} {E : Set Ele}
    (hlt : ∃ j, rh s.t_set e j < rhp j) :
    HistPos ⟨E, setUpdate s.t_set ⟨e, rh s.t_set e⟩ ⟨e, maxRh rhp (rh s.t_set e)⟩⟩ := by
  rintro y (⟨hy, -⟩ | rfl)
  · exact h y hy
  · obtain ⟨j, hj⟩ := hlt
    refine ⟨fun j => (h.rh_nonneg e j).trans (le_maxRh _ _ j).2, j, ?_⟩
    exact ((h.rh_nonneg e j).trans_lt hj).trans_le (le_maxRh _ _ j).1

theorem HistPos.add {s : Loc n} (h : HistPos s) (e : Sds) (x : ℚ) (p_ini : ℤ) (rhp : Rh n) :
    HistPos (add e x p_ini rhp s) := by
  simp only [RwfRpq.add]
  split
  · rename_i hlt
    split <;> exact h.join hlt
  · split <;> exact h

theorem HistPos.increase {s : Loc n} (h : HistPos s) (e : Sds) (i : ℚ) (rhp : Rh n) :
    HistPos (increase e i rhp s) := by
  simp only [RwfRpq.increase]
  split
  · rename_i hlt
    split <;> exact h.join hlt
  · split <;> exact h

theorem HistPos.remove {s s' : Loc n} (h : HistPos s) {e : Sds} {rhp : Rh n}
    (hs : remove e rhp s = some s') : HistPos s' := by
  simp only [RwfRpq.remove] at hs
  split at hs
  · cases hs
  · split at hs
    · rename_i hlt
      cases hs
      exact h.join hlt
    · cases hs
      exact h

theorem HistPos.effect {m : Op n} {s s' : Loc n} (h : HistPos s) (hs : effect m s = some s') :
    HistPos s' := by
  cases m with
  | add key val p_ini rh =>
    cases hs
    exact h.add key val p_ini rh
  | increase key val rh =>
    cases hs
    exact h.increase key val rh
  | remove key rh => exact h.remove hs

/-! ## Runs of the design -/

/-- The command of a request. -/
def cmdOf : Req → ZCmd
  | .add x => .zadd 4 (some x)
  | .increase i => .zincrby 4 (some i)
  | .remove => .zrem 3

theorem reqOf_cmdOf (q : Req) : reqOf (cmdOf q) = some q := by
  cases q <;> rfl

/-- `t_set` has a record once the element was removed. -/
theorem Canon.tSet_eq {r : Fin n} {x : RwfEle n (ℚ × ℚ)} {s : Loc n} (h : Canon e r x s)
    (hpos : HistPos s) :
    s.t_set = {y | y = ⟨e, rhOf x.header.current⟩ ∧ ∃ j, 0 < rhOf x.header.current j} := by
  ext y
  constructor
  · intro hy
    have heq := h.hist_one y hy
    obtain ⟨-, j, hj⟩ := hpos y hy
    rw [heq] at hj
    exact ⟨heq, j, hj⟩
  · rintro ⟨rfl, j, hj⟩
    -- Without a record the history is the default, which is zero.
    have hex : ∃ y ∈ s.t_set, y.key = e := by
      by_contra hne
      rw [← h.hist, rh, if_neg hne] at hj
      exact lt_irrefl _ hj
    obtain ⟨z, hz, -⟩ := hex
    exact h.hist_one z hz ▸ hz

/-- The metadata of an element decides the sets of a process. -/
theorem Canon.congr {r q : Fin n} {x y : RwfEle n (ℚ × ℚ)} {s s' : Loc n} (hx : Canon e r x s)
    (hy : Canon e q y s') (hpos : HistPos s) (hpos' : HistPos s')
    (hpid : x.header.pid = y.header.pid)
    (hcur : x.header.current.vector = y.header.current.vector) (hpay : x.pay = y.pay) :
    s.e_set = s'.e_set ∧ s.t_set = s'.t_set := by
  constructor
  · rw [hx.e_set, hy.e_set]
    simp only [records, hpid, hpay]
  · rw [hx.tSet_eq hpos, hy.tSet_eq hpos', rhOf_inj.mpr hcur]

variable {maxOps : ℕ} {d : Design.St (Fin n) (Loc n) (Op n)}

/-- **Strong eventual consistency of the design**, for every number of processes and bound: in every
reachable state processes that have the same operations to apply have the same sets, and no
operation that a process may take makes the assertion of `Remove` fail. -/
theorem rwf_sec (hd : (design n e).Reach maxOps d) :
    SEC d ∧ ∀ p, ∀ x ∈ d.ops p, ∃ l, effect x.2 (d.loc p) = some l := by
  obtain ⟨s, hs, hrel⟩ := ((refines_canon n e).covers fun q => ⟨_, reqOf_cmdOf q⟩).run hd.algorithm
  have hpos : ∀ p, HistPos (d.loc p) :=
    hd.loc_rule (fun _ y hy => (Set.notMem_empty y hy).elim) fun m l l' h hl => h.effect hl
  refine ⟨?_, fun p x hx => ?_⟩
  · rintro p q ⟨-, hops⟩
    have hrecv := hrel.recv_eq hs.wf hops
    obtain ⟨hpid, hcur, hinn, hacq⟩ :=
      (rwfzEle_closed hs p).agree (rwfzEle_closed hs q) hrecv
    exact (hrel.loc p).congr (hrel.loc q) (hpos p) (hpos q) hpid hcur (Prod.ext hinn hacq)
  · obtain ⟨num, -, hops⟩ := hrel.ops
    rw [hops] at hx
    obtain ⟨i, o, m, -, -, rfl⟩ := hx
    obtain ⟨l, hl, -⟩ := (refines_canon n e).effect (hrel.loc p) m
    exact ⟨l, hl⟩

/-- The first add of an element. -/
theorem add_new (e : Sds) (x : ℚ) {p_ini : ℤ} (hp : -1 < p_ini) :
    (add e x p_ini (fun _ => 0) (⟨∅, ∅⟩ : Loc n)).e_set = {⟨e, p_ini, x, 0⟩} := by
  have hel : element ∅ e = ⟨e, -1, 0, 0⟩ := dif_neg (by simp)
  simp [RwfRpq.add, rh_empty, hel, setUpdate, hp]

/-- Process 1 adds the element and process 2 receives the add. -/
theorem rwf_sec_shared : ∃ d : Design.St (Fin 2) (Loc 2) (Op 2),
    (design 2 "e".toList).Reach 1 d ∧ d.ops 0 = d.ops 1 ∧
      ⟨"e".toList, 1, 10, 0⟩ ∈ (d.loc 1).e_set ∧
      SEC d ∧ ∀ p, ∀ x ∈ d.ops p, ∃ l, effect x.2 (d.loc p) = some l := by
  let e := "e".toList
  let D := design 2 e
  let m : Op 2 := .add e 10 1 fun _ => 0
  have hlook : ¬ lookup (∅ : Set Ele) e := by simp [lookup]
  have hp : D.prepare 0 (D.start.loc 0) (.add 10) = some m := by
    refine (if_pos hlook).trans ?_
    rw [show rh (D.start.loc 0).t_set e = fun _ => 0 from rh_empty]
    rfl
  let d₁ : Design.St (Fin 2) (Loc 2) (Op 2) := ⟨Design.broadcast D.start.ops 0 (1, m), 1,
    Function.update D.start.loc 0 (add e 10 1 (fun _ => 0) ⟨∅, ∅⟩)⟩
  have h₁ : D.Reach 1 d₁ := .step .start (.issue Nat.zero_lt_one hp rfl)
  have hx : (1, m) ∈ d₁.ops 1 := .inr rfl
  have h₂ := h₁.step (.receive hx rfl)
  refine ⟨_, h₂, ?_, ?_, rwf_sec h₂⟩
  · simp [d₁, Design.broadcast, D, Design.start]
  · change _ ∈ (add e 10 1 (fun _ => 0) ⟨∅, ∅⟩ : Loc 2).e_set
    rw [add_new e 10 (by decide)]
    rfl

end RwfRpq

end CrdtRedis
