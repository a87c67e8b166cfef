import CrdtRedis.Broadcast.Design
import CrdtRedis.RwfZset

/-!
# The design of the RWF priority queue (`rwf_rpq.tla`)

The design keeps the elements of a queue in a set of records `e_set`, where one that does not exist
has no record, and their remove histories in `t_set`. Its effect macros compare the history of an
operation with the stored one and change both sets in one case split. The code runs `removeFunc`
first, then a check of the clock that it joined, and marks with two special ids that an element does
not exist or has no add yet.

* `Related`: how the metadata of an element reads as the design's records.
* `Related.prepare`, `Related.effect`: the phases of the code simulate the operators and macros, for
  every message.
* `rwfz_refines_design`: so they do along every run, and every run of the code is one of the design.

The processes are `1..N`, replica `r` is process `r + 1`. The design is for one element, `Elmts` has
one name in every configuration; its `_RH` chooses among the histories of all elements. The
variables that only record the run (`history`, `printed`) are left out.
-/

namespace CrdtRedis

open Broadcast

namespace RwfRpq

variable {n : ℕ}

/-- A remove history. -/
abbrev Rh (n : ℕ) := Fin n → ℤ

/-- A record of `e_set`. -/
structure Ele where
  key : Sds
  p_ini : ℤ
  v_inn : ℚ
  v_acq : ℚ

/-- A record of `t_set`. -/
structure Hist (n : ℕ) where
  key : Sds
  t : Rh n

/-- The variables of a process. -/
structure Loc (n : ℕ) where
  e_set : Set Ele
  t_set : Set (Hist n)

/-- The number of the process of a replica. -/
def proc (r : Fin n) : ℤ := (r : ℕ) + 1

/-- `Max_RH`. -/
def maxRh (a b : Rh n) : Rh n := fun j => if a j ≤ b j then b j else a j

/-- `_Lookup`. -/
def lookup (e_set : Set Ele) (e : Sds) : Prop := ∃ s ∈ e_set, s.key = e

open Classical in
/-- `_ELEMENT`. -/
noncomputable def element (e_set : Set Ele) (e : Sds) : Ele :=
  if h : ∃ s ∈ e_set, s.key = e then h.choose else ⟨e, -1, 0, 0⟩

open Classical in
/-- `_RH`. -/
noncomputable def rh (t_set : Set (Hist n)) (e : Sds) : Rh n :=
  if ∃ s ∈ t_set, s.key = e then Classical.epsilon (· ∈ Hist.t '' t_set) else fun _ => 0

/-- `_Get`. -/
def get (set : Set Ele) (e : Sds) : Set Ele := {s ∈ set | s.key = e}

/-- `set_update`. -/
def setUpdate {X : Type} (set : Set X) (old new : X) : Set X := set \ {old} ∪ {new}

/-- The record `p` of an operation: what `_Add`, `_Increase` and `_Remove` make. -/
inductive Op (n : ℕ) where
  | add (key : Sds) (val : ℚ) (p_ini : ℤ) (rh : Rh n)
  | increase (key : Sds) (val : ℚ) (rh : Rh n)
  | remove (key : Sds) (rh : Rh n)

/-- What a process asks for. -/
inductive Req where
  | add (x : ℚ)
  | increase (i : ℚ)
  | remove

open Classical in
/-- `_Add`, `_Increase` and `_Remove`; `none` is the record with key `null`. -/
noncomputable def prepare (e : Sds) (self : Fin n) (s : Loc n) : Req → Option (Op n)
  | .add x =>
    if ¬ lookup s.e_set e then some (.add e x (proc self) (rh s.t_set e)) else none
  | .increase i => if lookup s.e_set e then some (.increase e i (rh s.t_set e)) else none
  | .remove =>
    if lookup s.e_set e then
      some (.remove e fun j => if j = self then rh s.t_set e j + 1 else rh s.t_set e j)
    else none

/-- The macro `Remove`. -/
noncomputable def remove (e : Sds) (rhp : Rh n) (s : Loc n) : Option (Loc n) :=
  if rhp = fun _ => -1 then none
  else
    let local_rh := rh s.t_set e
    if ∃ j, local_rh j < rhp j then
      some {
        t_set := setUpdate s.t_set ⟨e, local_rh⟩ ⟨e, maxRh rhp local_rh⟩
        e_set := s.e_set \ get s.e_set e }
    else some s

/-- The macro `Add`. -/
noncomputable def add (e : Sds) (x : ℚ) (p_ini : ℤ) (rhp : Rh n) (s : Loc n) : Loc n :=
  let local_rh := rh s.t_set e
  let ele := element s.e_set e
  if ∃ j, local_rh j < rhp j then
    let t_set := setUpdate s.t_set ⟨e, local_rh⟩ ⟨e, maxRh rhp local_rh⟩
    if rhp = rh t_set e then ⟨setUpdate s.e_set ele ⟨e, p_ini, x, 0⟩, t_set⟩
    else ⟨s.e_set \ get s.e_set e, t_set⟩
  else if rhp = local_rh ∧ p_ini > ele.p_ini then
    { s with e_set := setUpdate s.e_set ele ⟨e, p_ini, x, ele.v_acq⟩ }
  else s

/-- The macro `Increase`. -/
noncomputable def increase (e : Sds) (i : ℚ) (rhp : Rh n) (s : Loc n) : Loc n :=
  let local_rh := rh s.t_set e
  let ele := element s.e_set e
  if ∃ j, local_rh j < rhp j then
    let t_set := setUpdate s.t_set ⟨e, local_rh⟩ ⟨e, maxRh rhp local_rh⟩
    if rhp = rh t_set e then ⟨setUpdate s.e_set ele ⟨e, -1, 0, 0 + i⟩, t_set⟩
    else ⟨s.e_set \ get s.e_set e, t_set⟩
  else if rhp = local_rh then
    { s with e_set := setUpdate s.e_set ele ⟨e, ele.p_ini, ele.v_inn, ele.v_acq + i⟩ }
  else s

/-- What a process does with an operation, its own or one of `ops`. -/
noncomputable def effect : Op n → Loc n → Option (Loc n)
  | .add key val p_ini rh, s => some (add key val p_ini rh s)
  | .increase key val rh, s => some (increase key val rh s)
  | .remove key rh, s => remove key rh s

/-- The algorithm, with `e` for the element of `Elmts`. -/
noncomputable def design (n : ℕ) (e : Sds) : Design (Fin n) (Loc n) Req (Op n) where
  init _ := ⟨∅, ∅⟩
  prepare := prepare e
  effect := effect

/-! ## The relation -/

/-- The history of a clock. -/
def rhOf (t : Clock n) : Rh n := fun j => (t.vector j : ℤ)

/-- The metadata of element `e` at replica `r`, read as the variables of process `r + 1`. -/
structure Related (e : Sds) (r : Fin n) (c : RwfzCell n) (s : Loc n) : Prop where
  id : (c.get r).header.current.id = r
  hist : rh s.t_set e = rhOf (c.get r).header.current
  hist_one : ∀ x ∈ s.t_set, x = ⟨e, rhOf (c.get r).header.current⟩
  empty : s.e_set = ∅ ↔ (c.get r).header.pid = PID_NEXIST
  key : ∀ x ∈ s.e_set, x.key = e
  wait : ∀ x ∈ s.e_set, x.p_ini = -1 ↔ (c.get r).header.pid = PID_WAIT_INNATE
  p_ini : ∀ x ∈ s.e_set, (c.get r).header.pid ≠ PID_WAIT_INNATE →
    x.p_ini = (c.get r).header.pid + 1
  v_inn : ∀ x ∈ s.e_set, x.v_inn = (c.get r).innate
  v_acq : ∀ x ∈ s.e_set, x.v_acq = (c.get r).acquired
  /-- An element that does not exist has the values of `_ELEMENT`. -/
  absent : s.e_set = ∅ → (c.get r).innate = 0 ∧ (c.get r).acquired = 0

/-- The operation of a message. -/
def opOf (e : Sds) : RwfzMsg n → Op n
  | .add v t => .add e v (proc t.id) (rhOf t)
  | .upd v t => .increase e v (rhOf t)
  | .rem t => .remove e (rhOf t)

/-- The request of a command whose arguments are accepted. -/
def reqOf : ZCmd → Option Req
  | .zadd argc v => (checkArgc 4 argc).toOption.bind fun _ => v.map .add
  | .zincrby argc v => (checkArgc 4 argc).toOption.bind fun _ => v.map .increase
  | .zrem argc => (checkArgc 3 argc).toOption.map fun _ => .remove

/-! ## The sets of one element -/

/-- The records of an element: its id is one less than `p_ini`, `PID_WAIT_INNATE` too. -/
def records (e : Sds) (x : RwfEle n (ℚ × ℚ)) : Set Ele :=
  {y | x.header.pid ≠ PID_NEXIST ∧ y = ⟨e, x.header.pid + 1, x.pay.1, x.pay.2⟩}

/-- `Related` with the sets written out. -/
structure Canon (e : Sds) (r : Fin n) (x : RwfEle n (ℚ × ℚ)) (s : Loc n) : Prop where
  id : x.header.current.id = r
  hist : rh s.t_set e = rhOf x.header.current
  hist_one : ∀ y ∈ s.t_set, y = ⟨e, rhOf x.header.current⟩
  e_set : s.e_set = records e x
  absent : x.header.pid = PID_NEXIST → x.pay = (0, 0)

section Sets

variable {e : Sds} {r : Fin n} {x : RwfEle n (ℚ × ℚ)} {s : Loc n}

theorem records_eq_empty : records e x = ∅ ↔ x.header.pid = PID_NEXIST := by
  rw [Set.eq_empty_iff_forall_notMem]
  constructor
  · intro h
    by_contra hne
    exact h _ ⟨hne, rfl⟩
  · rintro h y ⟨hne, -⟩
    exact hne h

theorem records_of_ne (h : x.header.pid ≠ PID_NEXIST) :
    records e x = {⟨e, x.header.pid + 1, x.pay.1, x.pay.2⟩} := by
  ext y
  simp [records, h]

theorem related_iff {c : RwfzCell n} : Related e r c s ↔ Canon e r (c.get r).toRwf s := by
  constructor
  · intro h
    refine ⟨h.id, h.hist, h.hist_one, ?_, fun habs => ?_⟩
    · ext y
      have hmem : ∀ z ∈ s.e_set,
          z = ⟨e, (c.get r).header.pid + 1, (c.get r).innate, (c.get r).acquired⟩ := by
        intro z hz
        have hp : z.p_ini = (c.get r).header.pid + 1 := by
          by_cases hw : (c.get r).header.pid = PID_WAIT_INNATE
          · rw [hw, (h.wait z hz).mpr hw]
            rfl
          · exact h.p_ini z hz hw
        rw [← h.key z hz, ← hp, ← h.v_inn z hz, ← h.v_acq z hz]
      constructor
      · intro hy
        exact ⟨fun hne => by simp [h.empty.mpr hne] at hy, hmem y hy⟩
      · rintro ⟨hne, rfl⟩
        obtain ⟨z, hz⟩ := Set.nonempty_iff_ne_empty.mpr (mt h.empty.mp hne)
        exact hmem z hz ▸ hz
    · obtain ⟨hi, ha⟩ := h.absent (h.empty.mpr habs)
      simp [Rwfze.toRwf, hi, ha]
  · rintro ⟨hid, hh, ho, he, ha⟩
    have hne : s.e_set = ∅ ↔ (c.get r).header.pid = PID_NEXIST := by
      rw [he, records_eq_empty]
      rfl
    refine ⟨hid, hh, ho, hne, ?_, ?_, ?_, ?_, ?_, fun hempty => ?_⟩
    all_goals try rw [he]
    · rintro y ⟨-, rfl⟩
      rfl
    · rintro y ⟨-, rfl⟩
      simp only [Rwfze.toRwf, PID_WAIT_INNATE]
      omega
    · rintro y ⟨-, rfl⟩ -
      rfl
    · rintro y ⟨-, rfl⟩
      rfl
    · rintro y ⟨-, rfl⟩
      rfl
    · simpa [Rwfze.toRwf] using ha (hne.mp hempty)

/-- The set has no other record. -/
theorem setUpdate_of_subset {X : Type} {set : Set X} {old new : X} (h : ∀ y ∈ set, y = old) :
    setUpdate set old new = {new} := by
  have hsub : set ⊆ {old} := h
  rw [setUpdate, Set.sdiff_eq_empty.mpr hsub, Set.empty_union]

theorem rh_empty : rh (∅ : Set (Hist n)) e = fun _ => 0 := by
  rw [rh, if_neg]
  rintro ⟨y, hy, -⟩
  exact hy

theorem rh_singleton (t : Rh n) : rh {⟨e, t⟩} e = t := by
  have hex : ∃ y ∈ ({⟨e, t⟩} : Set (Hist n)), y.key = e := ⟨_, rfl, rfl⟩
  rw [rh, if_pos hex, Set.image_singleton]
  exact Classical.epsilon_spec (p := (· ∈ ({t} : Set (Rh n)))) ⟨t, rfl⟩

namespace Canon

variable (h : Canon e r x s)

include h

theorem lookup : lookup s.e_set e ↔ x.header.exists = true := by
  have hex : x.header.exists = true ↔ x.header.pid ≠ PID_NEXIST := by simp [Reh.exists]
  rw [hex, RwfRpq.lookup, h.e_set]
  constructor
  · rintro ⟨y, ⟨hne, -⟩, -⟩
    exact hne
  · exact fun hne => ⟨_, ⟨hne, rfl⟩, rfl⟩

/-- `_ELEMENT` gives the record, or the default one, with `p_ini` below that of every add. -/
theorem element : element s.e_set e =
    ⟨e, if x.header.pid = PID_NEXIST then -1 else x.header.pid + 1, x.pay.1, x.pay.2⟩ := by
  rw [RwfRpq.element]
  split
  · rename_i hex
    obtain ⟨hne, heq⟩ : hex.choose ∈ records e x := h.e_set.subset hex.choose_spec.1
    rw [if_neg hne]
    exact heq
  · rename_i hex
    have hne : x.header.pid = PID_NEXIST := by
      by_contra hne
      exact hex (h.lookup.mpr (by simp [Reh.exists, hne]))
    simp [hne, h.absent hne]

theorem setUpdate_element (new : Ele) :
    setUpdate s.e_set (RwfRpq.element s.e_set e) new = {new} := by
  refine setUpdate_of_subset fun y hy => ?_
  obtain ⟨hne, rfl⟩ := h.e_set.subset hy
  rw [h.element, if_neg hne]

theorem diff_get : s.e_set \ get s.e_set e = ∅ := by
  refine Set.sdiff_eq_empty.mpr fun y hy => ⟨hy, ?_⟩
  rw [(h.e_set.subset hy).2]

theorem setUpdate_hist (t : Rh n) : setUpdate s.t_set ⟨e, rh s.t_set e⟩ ⟨e, t⟩ = {⟨e, t⟩} := by
  rw [h.hist]
  exact setUpdate_of_subset h.hist_one

end Canon

end Sets

/-! ## Histories -/

section Hist

variable {t c : Clock n}

theorem exists_lt_iff : (∃ j, rhOf c j < rhOf t j) ↔ ¬ t.vector ≤ c.vector := by
  simp [rhOf, Pi.le_def]

theorem rhOf_inj : rhOf t = rhOf c ↔ t.vector = c.vector := by
  simp [rhOf, funext_iff]

theorem maxRh_rhOf : maxRh (rhOf t) (rhOf c) = rhOf (vcUpdate c t) := by
  funext j
  simp only [maxRh, rhOf, vcUpdate_vector, Pi.sup_apply, Nat.cast_le]
  split <;> simp_all [le_of_lt]

/-- A process has a number in every history, so the assertion of `Remove` holds. -/
theorem rhOf_ne (r : Fin n) : rhOf t ≠ fun _ => -1 := fun h => by
  have := congrFun h r
  simp only [rhOf] at this
  omega

end Hist

/-! ## The effect phases -/

section Effect

variable {e : Sds} {r : Fin n} {x : RwfEle n (ℚ × ℚ)} {s : Loc n}

/-- An element that does not exist after a message of its epoch is as it was. -/
theorem epoch_absent {m : RwfzMsg n} (h : x.header.pid = PID_NEXIST → x.pay = (0, 0))
    (hne : (x.epoch (rwfzPayload n) m).header.pid = PID_NEXIST) :
    (x.epoch (rwfzPayload n) m).pay = (0, 0) := by
  simp only [RwfEle.epoch] at hne ⊢
  cases m with
  | add v t =>
    by_cases hp : x.header.pid < (t.id : ℕ)
    · simp only [epochStep, if_pos hp, PID_NEXIST] at hne
      omega
    · simp only [epochStep, if_neg hp] at hne ⊢
      exact h hne
  | upd v t =>
    simp only [epochStep] at hne
    split at hne
    · cases hne
    · contradiction
  | rem t => exact h hne

/-! The record after a message of the epoch. -/

theorem records_add {v : ℚ} {t : Clock n} (hp : x.header.pid < (t.id : ℕ)) :
    records e (x.epoch (rwfzPayload n) (.add v t)) = {⟨e, proc t.id, v, x.pay.2⟩} := by
  rw [RwfEle.epoch, epochStep, if_pos hp, records_of_ne (by simp only [PID_NEXIST]; omega)]
  rfl

theorem records_add_of_not {v : ℚ} {t : Clock n} (hp : ¬ x.header.pid < (t.id : ℕ)) :
    records e (x.epoch (rwfzPayload n) (.add v t)) = records e x := by
  rw [RwfEle.epoch, epochStep, if_neg hp]

theorem records_upd (v : ℚ) (t : Clock n) :
    records e (x.epoch (rwfzPayload n) (.upd v t)) =
      {⟨e, if x.header.pid = PID_NEXIST then -1 else x.header.pid + 1, x.pay.1, x.pay.2 + v⟩} := by
  rw [RwfEle.epoch, epochStep]
  by_cases hne : x.header.pid = PID_NEXIST
  · rw [if_pos hne, if_pos hne]
    exact records_of_ne (show PID_WAIT_INNATE ≠ PID_NEXIST by decide)
  · rw [if_neg hne, if_neg hne]
    exact records_of_ne hne

/-- The test on the joined history. -/
theorem rh_joined {c t : Clock n} :
    rhOf t = rh {⟨e, rhOf (vcUpdate c t)⟩} e ↔ t.vector = c.vector ⊔ t.vector := by
  rw [rh_singleton, rhOf_inj, vcUpdate_vector]

namespace Canon

variable (h : Canon e r x s)

include h

theorem exists_lt (t : Clock n) :
    (∃ j, rh s.t_set e j < rhOf t j) ↔ ¬ t.vector ≤ x.header.current.vector := by
  rw [h.hist]
  exact exists_lt_iff

/-- The test on the history. -/
theorem rh_eq (t : Clock n) : rhOf t = rh s.t_set e ↔ t.vector = x.header.current.vector := by
  rw [h.hist, rhOf_inj]

/-- `t_set` after the join with a history that is new. -/
theorem joined (t : Clock n) :
    setUpdate s.t_set ⟨e, rh s.t_set e⟩ ⟨e, maxRh (rhOf t) (rh s.t_set e)⟩ =
      {⟨e, rhOf (vcUpdate x.header.current t)⟩} := by
  rw [h.setUpdate_hist, h.hist, maxRh_rhOf]

/-- An id that the framework takes is one that the macro takes. -/
theorem lt_p_ini (q : Fin n) :
    proc q > (RwfRpq.element s.e_set e).p_ini ↔ x.header.pid < (q : ℕ) := by
  rw [h.element]
  simp only [proc]
  split
  · rename_i hne
    rw [hne, PID_NEXIST]
    omega
  · omega

/-- **A macro simulates an effect phase** if it does nothing with an old message, changes the record
as the framework does for one of the epoch, and otherwise joins the history and starts with no
record. -/
theorem of_macro {m : RwfzMsg n} {s' : Loc n}
    (old : m.t.vector ≤ x.header.current.vector → m.t.vector ≠ x.header.current.vector → s' = s)
    (same : m.t.vector = x.header.current.vector →
      s' = ⟨records e (x.epoch (rwfzPayload n) m), s.t_set⟩)
    (new : ¬ m.t.vector ≤ x.header.current.vector →
      s' = ⟨if m.t.vector = x.header.current.vector ⊔ m.t.vector then
          records e ((epochStart (rwfzPayload n) x m.t).epoch (rwfzPayload n) m) else ∅,
        {⟨e, rhOf (vcUpdate x.header.current m.t)⟩}⟩) :
    Canon e r (rwfEffect (rwfzPayload n) x m) s' := by
  by_cases hle : m.t.vector ≤ x.header.current.vector
  · rw [rwfEffect_of_le hle]
    by_cases heq : m.t.vector = x.header.current.vector
    · rw [if_pos heq, same heq]
      exact ⟨h.id, h.hist, h.hist_one, rfl, epoch_absent h.absent⟩
    · rw [if_neg heq, old hle heq]
      exact h
  · rw [rwfEffect_of_not_le hle, new hle]
    by_cases heq : m.t.vector = x.header.current.vector ⊔ m.t.vector
    · rw [if_pos heq, if_pos heq]
      exact ⟨h.id, rh_singleton _, fun y hy => hy, rfl, epoch_absent fun _ => rfl⟩
    · rw [if_neg heq, if_neg heq]
      exact ⟨h.id, rh_singleton _, fun y hy => hy, (records_eq_empty.mpr rfl).symm, fun _ => rfl⟩

theorem add (v : ℚ) (t : Clock n) :
    Canon e r (rwfEffect (rwfzPayload n) x (.add v t)) (add e v (proc t.id) (rhOf t) s) := by
  refine h.of_macro (fun hle hne => ?_) (fun heq => ?_) fun hle => ?_
  · rw [RwfRpq.add, if_neg (mt (h.exists_lt t).mp (not_not.mpr hle)),
      if_neg fun hand => hne ((h.rh_eq t).mp hand.1)]
  · rw [RwfRpq.add, if_neg (mt (h.exists_lt t).mp (not_not.mpr heq.le))]
    by_cases hp : x.header.pid < (t.id : ℕ)
    · rw [if_pos ⟨(h.rh_eq t).mpr heq, (h.lt_p_ini t.id).mpr hp⟩, h.setUpdate_element, h.element,
        records_add hp]
    · rw [if_neg fun hand => hp ((h.lt_p_ini t.id).mp hand.2), records_add_of_not hp, ← h.e_set]
  · have hp : (epochStart (rwfzPayload n) x t).header.pid < (t.id : ℕ) := by
      simp only [epochStart, rehRmvFunc, PID_NEXIST]
      omega
    rw [RwfRpq.add, if_pos ((h.exists_lt t).mpr hle), h.joined, h.setUpdate_element, h.diff_get,
      RwfMsg.t, records_add hp]
    simp only [rh_joined]
    split <;> rfl

theorem increase (v : ℚ) (t : Clock n) :
    Canon e r (rwfEffect (rwfzPayload n) x (.upd v t)) (increase e v (rhOf t) s) := by
  refine h.of_macro (fun hle hne => ?_) (fun heq => ?_) fun hle => ?_
  · rw [RwfRpq.increase, if_neg (mt (h.exists_lt t).mp (not_not.mpr hle)),
      if_neg (mt (h.rh_eq t).mp hne)]
  · rw [RwfRpq.increase, if_neg (mt (h.exists_lt t).mp (not_not.mpr heq.le)),
      if_pos ((h.rh_eq t).mpr heq), h.setUpdate_element, h.element, records_upd]
  · rw [RwfRpq.increase, if_pos ((h.exists_lt t).mpr hle), h.joined, h.setUpdate_element,
      h.diff_get, RwfMsg.t, records_upd]
    simp only [rh_joined]
    split <;> rfl

theorem remove (t : Clock n) :
    ∃ s', remove e (rhOf t) s = some s' ∧
      Canon e r (rwfEffect (rwfzPayload n) x (.rem t)) s' := by
  rw [RwfRpq.remove, if_neg (rhOf_ne r)]
  by_cases hle : t.vector ≤ x.header.current.vector
  · rw [if_neg (mt (h.exists_lt t).mp (not_not.mpr hle))]
    exact ⟨s, rfl, h.of_macro (fun _ _ => rfl)
      (fun _ => congrArg (fun e_set => (⟨e_set, s.t_set⟩ : Loc n)) h.e_set)
      fun hnot => absurd hle hnot⟩
  · rw [if_pos ((h.exists_lt t).mpr hle), h.joined, h.diff_get]
    refine ⟨_, rfl, h.of_macro (fun hle' => absurd hle' hle) (fun heq => absurd heq.le hle)
      fun _ => ?_⟩
    have hempty : records e ((epochStart (rwfzPayload n) x t).epoch (rwfzPayload n) (.rem t)) = ∅ :=
      records_eq_empty.mpr rfl
    rw [RwfMsg.t, hempty, ite_self]

/-- **Every effect phase simulates its macro**, for every message. -/
theorem effect (m : RwfzMsg n) : ∃ s', effect (opOf e m) s = some s' ∧
    Canon e r (rwfEffect (rwfzPayload n) x m) s' := by
  cases m with
  | add v t => exact ⟨_, rfl, h.add v t⟩
  | upd v t => exact ⟨_, rfl, h.increase v t⟩
  | rem t => exact h.remove t

end Canon

end Effect

/-! ## The prepare phases -/

section Prepare

variable {e : Sds} {r : Fin n} {c : RwfzCell n} {s : Loc n}

/-- The history of the message of a remove. -/
theorem rhOf_vcNow {t : Clock n} (hid : t.id = r) :
    rhOf (vcNow t) = fun j => if j = r then rhOf t j + 1 else rhOf t j := by
  funext j
  by_cases hj : j = r
  · simp [rhOf, vcNow, hid, hj]
  · simp [rhOf, vcNow, hid, hj]

/-- **Every prepare phase simulates its operator**: it makes the message of the operator's record,
and rejects what the operator turns down, or arguments that are no numbers. -/
theorem Canon.prepare (h : Canon e r (c.get r).toRwf s) (o : ZCmd) :
    (rwfzPrepare r c o).2.toOption.map (opOf e) = (reqOf o).bind (prepare e r s) := by
  have hhist : rh s.t_set e = rhOf (c.get r).header.current := h.hist
  have hlook : RwfRpq.lookup s.e_set e ↔ (c.get r).header.exists = true := h.lookup
  -- `GET_RWFZE` without `create` finds no element, or the one that `c.get r` is.
  have hget : ∀ x, c.ele = some x → c.get r = x := fun x hx => by simp [RwfzCell.get, hx]
  have hnone : c.ele = none → (c.get r).header.exists = false := fun hx => by
    rw [RwfzCell.get, hx]
    rfl
  cases o with
  | zadd argc v =>
    cases hc : checkArgc 4 argc <;> cases v <;>
      simp only [rwfzPrepare, reqOf, hc, checkArg, Except.toOption, Option.map_none,
        Option.bind_none, Option.bind_some, Option.map_some, RwfRpq.prepare, hlook]
    by_cases hex : (c.get r).header.exists = true
    · simp [hex]
    · simp [hex, opOf, hhist, show (c.get r).header.current.id = r from h.id]
  | zincrby argc v =>
    cases hc : checkArgc 4 argc <;> cases v <;>
      simp only [rwfzPrepare, reqOf, hc, checkArg, Except.toOption, Option.map_none,
        Option.bind_none, Option.bind_some, Option.map_some, RwfRpq.prepare, hlook]
    cases hele : c.ele with
    | none => simp [hnone hele]
    | some x =>
      rw [hget x hele] at hhist ⊢
      by_cases hex : x.header.exists = true
      · simp [hex, opOf, hhist]
      · simp [hex]
  | zrem argc =>
    cases hc : checkArgc 3 argc <;>
      simp only [rwfzPrepare, reqOf, hc, Except.toOption, Option.map_none, Option.bind_none,
        Option.bind_some, Option.map_some, RwfRpq.prepare, hlook]
    cases hele : c.ele with
    | none => simp [hnone hele]
    | some x =>
      have hid : x.header.current.id = r := hget x hele ▸ h.id
      rw [hget x hele] at hhist ⊢
      by_cases hex : x.header.exists = true
      · simp [hex, opOf, hhist, rhOf_vcNow hid]
      · simp [hex]

end Prepare

/-! ## Refinement -/

theorem refines_canon (n : ℕ) (e : Sds) :
    Refines (rwfzEleObj n) (design n e) (fun r c s => Canon e r (c.get r).toRwf s) (opOf e)
      reqOf := by
  refine ⟨fun r => ?_, fun {r c s} h {o c₁ res} hp => ?_, fun {r c s} h m => ?_⟩
  · exact ⟨rfl, rh_empty, fun y hy => hy.elim, (records_eq_empty.mpr rfl).symm, fun _ => rfl⟩
  · obtain ⟨rfl, rfl⟩ := Prod.mk.inj hp
    exact ⟨by rw [rwfzPrepare_get]; exact h, h.prepare o⟩
  · obtain ⟨s', hs', h'⟩ := h.effect m
    exact ⟨s', hs', by rw [← rwfzEffect_toRwf] at h'; exact h'⟩

/-- **The code refines its design**, for every number of replicas and element: initial states are
related; from related states every prepare phase, whether it accepts or rejects the command, and
every effect phase, for every message, ends in related states, and the messages are those of the
operators. So every run of the code, with every order of delivery, is one of the design. The values
and increments are exact numbers, on both sides. -/
theorem rwfz_refines_design (n : ℕ) (e : Sds) :
    Refines (rwfzEleObj n) (design n e) (Related e) (opOf e) reqOf ∧
    ∀ s, (rwfzEleObj n).Reach anyOrder s →
      ∃ maxOps d, (design n e).Reach maxOps d ∧ SysRel (Related e) (opOf e) s d := by
  have hrel : Related e = fun r c s => Canon e (n := n) r (c.get r).toRwf s := by
    funext r c s
    exact propext related_iff
  rw [hrel]
  exact ⟨refines_canon n e, fun s hs => (refines_canon n e).run hs⟩

/-- Replica 1 increments the element, while replica 0 removes it and adds it again. -/
def demo : List (Ev (Fin 2) ZCmd) :=
  [.op 0 (.zadd 4 (some 10)) 0, .recv 1 0, .op 1 (.zincrby 4 (some 3)) 1, .op 0 (.zrem 3) 2,
    .op 0 (.zadd 4 (some 20)) 3, .recv 1 3, .recv 0 1]

theorem rwfz_refines_design_demo :
    let s := (rwfzEleObj 2).runOf demo
    (s.st 1).zset = some 20 ∧ ∃ maxOps d, (design 2 "e".toList).Reach maxOps d ∧
      SysRel (Related "e".toList) (opOf "e".toList) s d :=
  ⟨by decide +kernel, (rwfz_refines_design 2 "e".toList).2 _
    (Obj.reach_runOf (g := fun _ _ => true) (fun _ _ _ => trivial) demo (by decide +kernel))⟩

end RwfRpq

end CrdtRedis
