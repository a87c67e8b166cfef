import CrdtRedis.Broadcast.View
import CrdtRedis.VectorClock

/-!
# The remove-win framework (`RWFramework.h`)

The framework gives each element of a container a header (`Reh`): the id of the replica whose add
the element shows (`pid`, with the two special values `PID_NEXIST` and `PID_WAIT_INNATE`), and the
remove history (`current`), a vector clock that only removes advance. Every message carries a
remove history. `removeCheck`, `addCheck` and `updateCheck` are the checks of the effect phases.

The container types that use the framework differ in what an add, an update and a remove do to
the rest of the element. `Payload` is that part and `rwfObj` the element as a replicated object.

* `rwfEffect_of_le`, `rwfEffect_of_not_le`: what one message does, by how its history compares with
  `current`. A message whose history equals the joined one is an operation of the current *epoch*;
  every other message is forgotten or starts a new epoch.
* `rwfObj_epoch`: in every reachable state `current` is the join of the histories received, and
  `pid` and the payload are the fold (`epochFold`) of the epoch's messages in the order in which
  they arrived. Nothing else of the past is left.
* `PidSpec`: `pid` does not depend on that order.
* `add_unique`: one replica adds an element at most once in an epoch.
-/

namespace CrdtRedis

open Broadcast

def PID_NEXIST : ℤ := -1
def PID_WAIT_INNATE : ℤ := -2

/-- `reh`. -/
structure Reh (n : ℕ) where
  pid : ℤ
  current : Clock n

variable {n : ℕ}

/-- `REH_INIT`, at replica `r`. -/
def rehInit (r : Fin n) : Reh n := ⟨PID_NEXIST, vcNew r⟩

/-- `EXISTS`. -/
def Reh.exists (h : Reh n) : Bool := h.pid != PID_NEXIST

/-- `REH_RMV_FUNC`. -/
def rehRmvFunc (h : Reh n) (t : Clock n) : Reh n := ⟨PID_NEXIST, vcUpdate h.current t⟩

def addCheck (h : Reh n) (t : Clock n) : Reh n × Bool :=
  if !vcEqual t h.current then (h, false)
  else if h.pid < (t.id : ℕ) then ({ h with pid := (t.id : ℕ) }, true)
  else (h, false)

def updateCheck (h : Reh n) (t : Clock n) : Reh n × Bool :=
  if !vcEqual t h.current then (h, false)
  else (if !h.exists then { h with pid := PID_WAIT_INNATE } else h, true)

def removeCheck (h : Reh n) (t : Clock n) : Reh n × Bool :=
  if ∃ i, h.current.vector i < t.vector i then (rehRmvFunc h t, true) else (h, false)

/-! A check that fails changes nothing. -/

theorem addCheck_false {h h' : Reh n} {t : Clock n} (e : addCheck h t = (h', false)) : h' = h := by
  unfold addCheck at e
  split at e
  · exact (Prod.mk.inj e).1.symm
  · split at e
    · cases e
    · exact (Prod.mk.inj e).1.symm

theorem updateCheck_false {h h' : Reh n} {t : Clock n} (e : updateCheck h t = (h', false)) :
    h' = h := by
  unfold updateCheck at e
  split at e
  · exact (Prod.mk.inj e).1.symm
  · cases e

theorem removeCheck_false {h h' : Reh n} {t : Clock n} (e : removeCheck h t = (h', false)) :
    h' = h := by
  unfold removeCheck at e
  split at e
  · cases e
  · exact (Prod.mk.inj e).1.symm

/-! A check that passes: the element exists after an add or an update, and not after a remove. -/

theorem addCheck_true {h h' : Reh n} {t : Clock n} (e : addCheck h t = (h', true)) :
    h'.exists = true := by
  unfold addCheck at e
  split at e
  · cases e
  · split at e
    · obtain ⟨rfl, -⟩ := Prod.mk.inj e
      simp only [Reh.exists, PID_NEXIST, bne_iff_ne]
      omega
    · cases e

theorem updateCheck_true {h h' : Reh n} {t : Clock n} (e : updateCheck h t = (h', true)) :
    vcEqual t h.current = true ∧ (h.exists = true → h' = h) := by
  unfold updateCheck at e
  split at e
  · cases e
  · rename_i heq
    refine ⟨by simpa using heq, fun hex => ?_⟩
    simpa [hex] using (Prod.mk.inj e).1.symm

theorem updateCheck_exists {h h' : Reh n} {t : Clock n} (e : updateCheck h t = (h', true)) :
    h'.exists = true := by
  unfold updateCheck at e
  split at e
  · cases e
  · obtain ⟨rfl, -⟩ := Prod.mk.inj e
    split
    · rfl
    · rename_i hex; simpa using hex

theorem removeCheck_true {h h' : Reh n} {t : Clock n} (e : removeCheck h t = (h', true)) :
    h'.exists = false := by
  unfold removeCheck at e
  split at e
  · obtain ⟨rfl, -⟩ := Prod.mk.inj e; rfl
  · cases e

/-! ## An element as a replicated object -/

/-- What a container type adds to the header. `stamp` is what the prepare phase of an update reads
from the element. -/
structure Payload (n : ℕ) (A U₀ U X : Type) where
  new : Fin n → X
  clear : X → X
  add : A → X → X
  upd : U → X → X
  stamp : Fin n → X → U₀ → U
  clear_new : ∀ r, clear (new r) = new r

/-- An element: its header and the rest. -/
structure RwfEle (n : ℕ) (X : Type) where
  header : Reh n
  pay : X

/-- A message: an add, an update or a remove, with a remove history. -/
inductive RwfMsg (n : ℕ) (A U : Type) where
  | add (a : A) (t : Clock n)
  | upd (u : U) (t : Clock n)
  | rem (t : Clock n)

def RwfMsg.t {A U : Type} : RwfMsg n A U → Clock n
  | .add _ t | .upd _ t | .rem t => t

/-- A command. -/
inductive RwfOp (A U₀ : Type) where
  | add (a : A)
  | upd (u : U₀)
  | rem

variable {A U₀ U X : Type} (F : Payload n A U₀ U X)

/-- The remove part of every effect phase. -/
def rwfRemove (e : RwfEle n X) (t : Clock n) : RwfEle n X :=
  match removeCheck e.header t with
  | (h, true) => ⟨h, F.clear e.pay⟩
  | (h, false) => ⟨h, e.pay⟩

/-- The effect phase. -/
def rwfEffect (e : RwfEle n X) (m : RwfMsg n A U) : RwfEle n X :=
  let e := rwfRemove F e m.t
  match m with
  | .add a t =>
    match addCheck e.header t with
    | (h, true) => ⟨h, F.add a e.pay⟩
    | (h, false) => ⟨h, e.pay⟩
  | .upd u t =>
    match updateCheck e.header t with
    | (h, true) => ⟨h, F.upd u e.pay⟩
    | (h, false) => ⟨h, e.pay⟩
  | .rem _ => e

/-- The prepare phase: `PREPARE_PRECOND_ADD`, `PREPARE_PRECOND_NON_ADD`, `ADD_CR_NON_RMV` and
`ADD_CR_RMV`. -/
def rwfPrepare (r : Fin n) (e : RwfEle n X) : RwfOp A U₀ → Option (RwfMsg n A U)
  | .add a => if e.header.exists then none else some (.add a e.header.current)
  | .upd u =>
    if e.header.exists then some (.upd (F.stamp r e.pay u) e.header.current) else none
  | .rem => if e.header.exists then some (.rem (vcNow e.header.current)) else none

/-- An element of the framework as a replicated object. -/
def rwfObj : Obj (Fin n) (RwfEle n X) (RwfOp A U₀) (RwfMsg n A U) where
  init r := ⟨rehInit r, F.new r⟩
  prepare r e o := (e, rwfPrepare F r e o)
  effect _ e m := rwfEffect F e m

/-! ## Epochs -/

/-- What a message of the current epoch does to the id and the payload. -/
def epochStep (p : ℤ × X) : RwfMsg n A U → ℤ × X
  | .add a t => if p.1 < (t.id : ℕ) then (((t.id : ℕ) : ℤ), F.add a p.2) else p
  | .upd u _ => (if p.1 = PID_NEXIST then PID_WAIT_INNATE else p.1, F.upd u p.2)
  | .rem _ => p

/-- The messages of an epoch in the order in which they arrived, on a payload that the epoch's
start cleared. -/
def epochFold (x : X) (l : List (RwfMsg n A U)) : ℤ × X :=
  l.foldl (epochStep F) (PID_NEXIST, x)

theorem epochFold_snoc (x : X) (l : List (RwfMsg n A U)) (m : RwfMsg n A U) :
    epochFold F x (l ++ [m]) = epochStep F (epochFold F x l) m := by
  simp [epochFold]

variable {F} {e : RwfEle n X} {m : RwfMsg n A U}

/-- `epochStep` on an element. -/
def RwfEle.epoch (F : Payload n A U₀ U X) (e : RwfEle n X) (m : RwfMsg n A U) : RwfEle n X :=
  let p := epochStep F (e.header.pid, e.pay) m
  ⟨⟨p.1, e.header.current⟩, p.2⟩

theorem removeCheck_of_le {h : Reh n} {t : Clock n} (ht : t.vector ≤ h.current.vector) :
    removeCheck h t = (h, false) := by
  rw [removeCheck, if_neg]
  rintro ⟨i, hi⟩
  exact absurd (ht i) (not_le.mpr hi)

theorem removeCheck_of_not_le {h : Reh n} {t : Clock n} (ht : ¬ t.vector ≤ h.current.vector) :
    removeCheck h t = (rehRmvFunc h t, true) := by
  rw [removeCheck, if_pos]
  obtain ⟨i, hi⟩ := not_forall.mp ht
  exact ⟨i, not_le.mp hi⟩

/-- After the remove part, the checks are those of the epoch. -/
theorem rwfEffect_eq (e' : RwfEle n X) (he : rwfRemove F e m.t = e') :
    rwfEffect F e m =
      if m.t.vector = e'.header.current.vector then e'.epoch F m else e' := by
  subst he
  rcases hr : rwfRemove F e m.t with ⟨⟨p, c⟩, x⟩
  cases m with
  | add a t =>
    simp only [RwfMsg.t] at hr ⊢
    by_cases heq : t.vector = c.vector
    · by_cases hp : p < (t.id : ℕ)
      · simp [rwfEffect, RwfMsg.t, hr, addCheck, vcEqual_iff.mpr heq, heq, hp, RwfEle.epoch,
          epochStep]
      · simp [rwfEffect, RwfMsg.t, hr, addCheck, vcEqual_iff.mpr heq, heq, hp, RwfEle.epoch,
          epochStep]
    · have : vcEqual t c = false := by simpa [← Bool.not_eq_true, vcEqual_iff] using heq
      simp [rwfEffect, RwfMsg.t, hr, addCheck, this, heq]
  | upd u t =>
    simp only [RwfMsg.t] at hr ⊢
    by_cases heq : t.vector = c.vector
    · by_cases hp : p = PID_NEXIST
      · simp [rwfEffect, RwfMsg.t, hr, updateCheck, vcEqual_iff.mpr heq, heq, hp, RwfEle.epoch,
          epochStep, Reh.exists]
      · simp [rwfEffect, RwfMsg.t, hr, updateCheck, vcEqual_iff.mpr heq, heq, hp, RwfEle.epoch,
          epochStep, Reh.exists]
    · have : vcEqual t c = false := by simpa [← Bool.not_eq_true, vcEqual_iff] using heq
      simp [rwfEffect, RwfMsg.t, hr, updateCheck, this, heq]
  | rem t =>
    simp only [RwfMsg.t] at hr ⊢
    by_cases heq : t.vector = c.vector
    · simp [rwfEffect, RwfMsg.t, hr, heq, RwfEle.epoch, epochStep]
    · simp [rwfEffect, RwfMsg.t, hr, heq]

/-- A message whose history is not new: it counts only if it has seen every remove that the
element has. -/
theorem rwfEffect_of_le (h : m.t.vector ≤ e.header.current.vector) :
    rwfEffect F e m = if m.t.vector = e.header.current.vector then e.epoch F m else e :=
  rwfEffect_eq e (by simp [rwfRemove, removeCheck_of_le h])

/-- The start of an epoch: the remove part for a history that is new. -/
def epochStart (F : Payload n A U₀ U X) (e : RwfEle n X) (t : Clock n) : RwfEle n X :=
  ⟨rehRmvFunc e.header t, F.clear e.pay⟩

/-- A message whose history is new starts an epoch; it belongs to it if it has seen every remove
that the element has. -/
theorem rwfEffect_of_not_le (h : ¬ m.t.vector ≤ e.header.current.vector) :
    rwfEffect F e m =
      if m.t.vector = e.header.current.vector ⊔ m.t.vector then (epochStart F e m.t).epoch F m
      else epochStart F e m.t := by
  have hr : rwfRemove F e m.t = epochStart F e m.t := by
    simp [rwfRemove, removeCheck_of_not_le h, epochStart]
  have hc : (epochStart F e m.t).header.current.vector =
      e.header.current.vector ⊔ m.t.vector := vcUpdate_vector _ _
  rw [rwfEffect_eq _ hr, hc]

/-! ## The reachable states of one element -/

/-- The remove history of message `i`. -/
def rwfTs (μ : ℕ → Option (RwfMsg n A U)) (i : ℕ) : Fin n → ℕ :=
  ((μ i).map (·.t.vector)).getD 0

/-- The state `e` of replica `r`, which received the messages `D`, is that of its current epoch:
`current` is the join of the histories received, and the rest comes from the messages with that
history, in some order. -/
structure InEpoch (F : Payload n A U₀ U X) (r : Fin n) (e : RwfEle n X) (D : Finset ℕ)
    (μ : ℕ → Option (RwfMsg n A U)) : Prop where
  id : e.header.current.id = r
  current : e.header.current.vector = D.sup (rwfTs μ)
  fold : ∃ (l : List ℕ) (x : X), l.Nodup ∧
    (∀ i, i ∈ l ↔ i ∈ D ∧ rwfTs μ i = e.header.current.vector) ∧
    (e.header.pid, e.pay) = epochFold F (F.clear x) (l.filterMap μ)

section

variable {r : Fin n} {D : Finset ℕ} {μ : ℕ → Option (RwfMsg n A U)}

theorem InEpoch.init : InEpoch F r ⟨rehInit r, F.new r⟩ ∅ μ where
  id := rfl
  current := rfl
  fold := ⟨[], F.new r, List.nodup_nil, by simp, by simp [epochFold, rehInit, F.clear_new]⟩

/-- Only the messages in `D` matter. -/
theorem InEpoch.congr {μ' : ℕ → Option (RwfMsg n A U)} (h : InEpoch F r e D μ)
    (hμ : ∀ i ∈ D, μ' i = μ i) : InEpoch F r e D μ' := by
  have hts : ∀ i ∈ D, rwfTs μ' i = rwfTs μ i := fun i hi => by simp [rwfTs, hμ i hi]
  obtain ⟨l, x, hl, hmem, hf⟩ := h.fold
  refine ⟨h.id, h.current.trans (Finset.sup_congr rfl fun i hi => (hts i hi).symm),
    l, x, hl, fun i => ?_, ?_⟩
  · rw [hmem]
    refine and_congr_right fun hi => ?_
    rw [hts i hi]
  · rw [hf]
    congr 1
    exact List.filterMap_congr fun i hi => (hμ i ((hmem i).mp hi).1).symm

/-- One more message. -/
theorem InEpoch.effect {i : ℕ} (h : InEpoch F r e D μ) (hi : i ∉ D) (hm : μ i = some m) :
    InEpoch F r (rwfEffect F e m) (insert i D) μ := by
  have hts : rwfTs μ i = m.t.vector := by simp [rwfTs, hm]
  have hsup : (insert i D).sup (rwfTs μ) = m.t.vector ⊔ e.header.current.vector := by
    rw [Finset.sup_insert, hts, h.current]
  have hle : ∀ j ∈ D, rwfTs μ j ≤ e.header.current.vector := fun j hj =>
    h.current ▸ Finset.le_sup hj
  by_cases hc : m.t.vector ≤ e.header.current.vector
  · -- The epoch stays; the message joins it if it has the epoch's history.
    obtain ⟨l, x, hl, hmem, hf⟩ := h.fold
    have hil : i ∉ l := fun hil => hi ((hmem i).mp hil).1
    have hcur : e.header.current.vector = (insert i D).sup (rwfTs μ) := by
      rw [hsup, sup_eq_right.mpr hc]
    rw [rwfEffect_of_le hc]
    split
    · rename_i heq
      refine ⟨h.id, hcur, l ++ [i], x, ?_, fun j => ?_, ?_⟩
      · exact hl.append (List.nodup_singleton i) (by simpa using hil)
      · by_cases hj : j = i
        · subst hj; simp [hts, heq, RwfEle.epoch]
        · simp [hj, hmem, RwfEle.epoch]
      · rw [List.filterMap_append, show [i].filterMap μ = [m] by simp [hm], epochFold_snoc, ← hf]
        rfl
    · rename_i hne
      refine ⟨h.id, hcur, l, x, hl, fun j => ?_, hf⟩
      by_cases hj : j = i
      · subst hj; simp [hts, hne, hil]
      · simp [hj, hmem]
  · -- A new epoch: no message received so far has its history.
    have hcur : (epochStart F e m.t).header.current.vector = (insert i D).sup (rwfTs μ) := by
      rw [hsup, sup_comm]; exact vcUpdate_vector _ _
    have hold : ∀ j ∈ D, rwfTs μ j ≠ (insert i D).sup (rwfTs μ) := by
      intro j hj heq
      have h1 : m.t.vector ≤ rwfTs μ j := by rw [heq, hsup]; exact le_sup_left
      exact hc (h1.trans (hle j hj))
    rw [rwfEffect_of_not_le hc]
    split
    · rename_i heq
      refine ⟨h.id, hcur, [i], e.pay, List.nodup_singleton i, fun j => ?_, ?_⟩
      · simp only [List.mem_singleton, Finset.mem_insert, RwfEle.epoch, hcur]
        constructor
        · rintro rfl
          exact ⟨.inl rfl, by rw [hts, hsup, sup_comm]; exact heq⟩
        · rintro ⟨rfl | hj, hj'⟩
          · rfl
          · exact absurd hj' (hold j hj)
      · rw [show [i].filterMap μ = [m] by simp [hm]]
        rfl
    · rename_i hne
      refine ⟨h.id, hcur, [], e.pay, List.nodup_nil, fun j => ?_, rfl⟩
      simp only [List.not_mem_nil, Finset.mem_insert, false_iff, not_and, hcur]
      rintro (rfl | hj)
      · rw [hts, hsup, sup_comm]; exact hne
      · exact hold j hj

end

variable {G : Sys (Fin n) (RwfEle n X) (RwfMsg n A U) → Ev (Fin n) (RwfOp A U₀) → Prop}
  {s : Sys (Fin n) (RwfEle n X) (RwfMsg n A U)}

/-- **Every replica is in its current epoch**, in every reachable state. -/
theorem rwfObj_epoch (hs : (rwfObj F).Reach G s) (r : Fin n) :
    InEpoch F r (s.st r) (s.recv r) (s.msg) := by
  revert r
  refine hs.rule (I := fun s => ∀ r, InEpoch F r (s.st r) (s.recv r) (s.msg))
    (fun r => InEpoch.init) ?_ ?_ ?_
  · intro s r o i s₁ _ ih _ hp q
    obtain ⟨rfl, -⟩ := Prod.mk.inj hp
    by_cases hq : q = r
    · subst hq; rw [Obj.reject_st_self]; exact ih q
    · rw [Obj.reject_st_ne hq]; exact ih q
  · intro s r o i s₁ m hs ih _ hp hl q
    obtain ⟨rfl, -⟩ := Prod.mk.inj hp
    have hcongr : ∀ q, ∀ j ∈ s.recv q,
        ((rwfObj F).issue s r i (s.st r) m).msg j = s.msg j := by
      intro q j hj
      rw [Sys.msg, Sys.msg, hs.wf.issue_log_recv hl hj]
    by_cases hq : q = r
    · subst hq
      rw [Obj.issue_st_self, Obj.issue_recv_self]
      exact ((ih q).congr (hcongr q)).effect (hs.wf.notMem_recv hl q) (by simp [Sys.msg])
    · rw [Obj.issue_st_ne hq, Obj.issue_recv_ne hq]
      exact (ih q).congr (hcongr q)
  · intro s r i o m _ ih _ hl hi q
    by_cases hq : q = r
    · subst hq
      rw [Obj.deliver_st_self, Obj.deliver_recv_self]
      exact (ih q).effect hi (by simp [Sys.msg, hl])
    · rw [Obj.deliver_st_ne hq, Obj.deliver_recv_ne hq]
      exact ih q

/-- What a message keeps of the payload. -/
theorem rwfEffect_pay {I : X → Prop} (clear : ∀ x, I x → I (F.clear x))
    (add : ∀ a x, I x → I (F.add a x)) (upd : ∀ u x, I x → I (F.upd u x)) (h : I e.pay) :
    I (rwfEffect F e m).pay := by
  have hstep : ∀ e' : RwfEle n X, I e'.pay → I (e'.epoch F m).pay := by
    intro e' he'
    cases m with
    | add a t =>
      simp only [RwfEle.epoch, epochStep]
      split
      · exact add a _ he'
      · exact he'
    | upd u t => exact upd u _ he'
    | rem t => exact he'
  by_cases hle : m.t.vector ≤ e.header.current.vector
  · rw [rwfEffect_of_le hle]
    split
    · exact hstep e h
    · exact h
  · rw [rwfEffect_of_not_le hle]
    split
    · exact hstep _ (clear _ h)
    · exact clear _ h

/-- An invariant of the payload alone. -/
theorem rwfObj_pay {I : Fin n → X → Prop} (hs : (rwfObj F).Reach G s)
    (new : ∀ r, I r (F.new r)) (clear : ∀ r x, I r x → I r (F.clear x))
    (add : ∀ r a x, I r x → I r (F.add a x)) (upd : ∀ r u x, I r x → I r (F.upd u x)) :
    ∀ r, I r (s.st r).pay :=
  hs.st_rule (I := fun r e => I r e.pay) new
    (fun r x o x₁ m hx hp => by obtain ⟨rfl, -⟩ := Prod.mk.inj hp; exact hx)
    (fun r x m hx => rwfEffect_pay (clear r) (add r) (upd r) hx)

/-! ## The id -/

/-- What the messages of an epoch make of the id, in any order. -/
structure PidSpec (l : List (RwfMsg n A U)) (p : ℤ) : Prop where
  le : ∀ a t, .add a t ∈ l → ((t.id : ℕ) : ℤ) ≤ p
  cases : p = PID_NEXIST ∨ p = PID_WAIT_INNATE ∨ ∃ a t, .add a t ∈ l ∧ p = (t.id : ℕ)
  wait : p = PID_WAIT_INNATE → ∃ u t, .upd u t ∈ l
  nexist : p = PID_NEXIST → ∀ u t, .upd u t ∉ l

/-- An id of a replica is none of the special values. -/
theorem natCast_ne_special (k : ℕ) : (k : ℤ) ≠ PID_NEXIST ∧ (k : ℤ) ≠ PID_WAIT_INNATE := by
  unfold PID_NEXIST PID_WAIT_INNATE; omega

theorem epochFold_pid (F : Payload n A U₀ U X) (x : X) (l : List (RwfMsg n A U)) :
    PidSpec l (epochFold F x l).1 := by
  induction l using List.reverseRecOn with
  | nil => exact ⟨by simp, .inl rfl, by simp [epochFold, PID_NEXIST, PID_WAIT_INNATE], by simp⟩
  | append_singleton l m ih =>
    rw [epochFold_snoc]
    generalize epochFold F x l = p at ih
    cases m with
    | add b t =>
      by_cases hp : p.1 < (t.id : ℕ)
      · simp only [epochStep, if_pos hp]
        refine ⟨fun a t' h => ?_, .inr (.inr ⟨b, t, by simp, rfl⟩),
          fun h => absurd h (natCast_ne_special _).2, fun h => absurd h (natCast_ne_special _).1⟩
        simp only [List.mem_append, List.mem_singleton, RwfMsg.add.injEq] at h
        rcases h with h | ⟨-, rfl⟩
        · exact (ih.le a t' h).trans hp.le
        · exact le_rfl
      · simp only [epochStep, if_neg hp]
        refine ⟨fun a t' h => ?_, ?_, fun h => ?_, fun h u t' hu => ?_⟩
        · simp only [List.mem_append, List.mem_singleton, RwfMsg.add.injEq] at h
          rcases h with h | ⟨-, rfl⟩
          · exact ih.le a t' h
          · exact not_lt.mp hp
        · rcases ih.cases with h | h | ⟨a, t', h, hp'⟩
          · exact .inl h
          · exact .inr (.inl h)
          · exact .inr (.inr ⟨a, t', by simp [h], hp'⟩)
        · obtain ⟨u, t', hu⟩ := ih.wait h
          exact ⟨u, t', by simp [hu]⟩
        · exact ih.nexist h u t' (by simpa using hu)
    | upd v t =>
      have hadd : ∀ {a t'}, RwfMsg.add a t' ∈ l ++ [.upd v t] → RwfMsg.add a t' ∈ l := by simp
      by_cases hp : p.1 = PID_NEXIST
      · simp only [epochStep, if_pos hp]
        refine ⟨fun a t' h => ?_, .inr (.inl rfl), fun _ => ⟨v, t, by simp⟩, fun h => ?_⟩
        · -- An add would have given an id.
          have := ih.le a t' (hadd h)
          simp only [hp, PID_NEXIST] at this
          omega
        · simp [PID_NEXIST, PID_WAIT_INNATE] at h
      · simp only [epochStep, if_neg hp]
        refine ⟨fun a t' h => ih.le a t' (hadd h), ?_, fun _ => ⟨v, t, by simp⟩,
          fun h => absurd h hp⟩
        rcases ih.cases with h | h | ⟨a, t', h, hp'⟩
        · exact absurd h hp
        · exact .inr (.inl h)
        · exact .inr (.inr ⟨a, t', by simp [h], hp'⟩)
    | rem t =>
      refine ⟨fun a t' h => ih.le a t' (by simpa using h), ?_, fun h => ?_, fun h u t' hu => ?_⟩
      · rcases ih.cases with h | h | ⟨a, t', h, hp'⟩
        · exact .inl h
        · exact .inr (.inl h)
        · exact .inr (.inr ⟨a, t', by simp [h], hp'⟩)
      · obtain ⟨u, t', hu⟩ := ih.wait h
        exact ⟨u, t', by simp [hu]⟩
      · exact ih.nexist h u t' (by simpa using hu)

/-- What an accepted command sends. -/
theorem rwfPrepare_some {r : Fin n} {o : RwfOp A U₀} (h : rwfPrepare F r e o = some m) :
    (∃ a, m = .add a e.header.current ∧ e.header.pid = PID_NEXIST) ∨
    (∃ u, m = .upd (F.stamp r e.pay u) e.header.current ∧ e.header.pid ≠ PID_NEXIST) ∨
    (m = .rem (vcNow e.header.current) ∧ e.header.pid ≠ PID_NEXIST) := by
  cases o with
  | add a =>
    simp only [rwfPrepare] at h
    split at h
    · cases h
    · rename_i hex
      cases h
      exact .inl ⟨a, rfl, by simpa [Reh.exists] using hex⟩
  | upd u =>
    simp only [rwfPrepare] at h
    split at h
    · rename_i hex
      cases h
      exact .inr (.inl ⟨u, rfl, by simpa [Reh.exists] using hex⟩)
    · cases h
  | rem =>
    simp only [rwfPrepare] at h
    split at h
    · rename_i hex
      cases h
      exact .inr (.inr ⟨rfl, by simpa [Reh.exists] using hex⟩)
    · cases h

/-- The clock of a message has the id of its origin. -/
theorem rwf_origin (hs : (rwfObj F).Reach G s) :
    ∀ i o m, s.log i = some (o, m) → m.t.id = o := by
  refine hs.msg_rule fun s r o i s₁ m hs _ hp => ?_
  have hid := (rwfObj_epoch hs r).id
  rcases rwfPrepare_some (Prod.mk.inj hp).2 with ⟨a, rfl, -⟩ | ⟨u, rfl, -⟩ | ⟨rfl, -⟩
  all_goals exact hid

/-- **One replica adds an element at most once in an epoch**: two adds with one origin have
different histories. -/
theorem add_unique (hs : (rwfObj F).Reach G s) :
    ∀ i j o a b t t', s.log i = some (o, .add a t) → s.log j = some (o, .add b t') →
      t.vector = t'.vector → i = j := by
  refine hs.log_rule (I := fun log => ∀ i j o (a b : A) (t t' : Clock n),
      log i = some (o, RwfMsg.add a t) → log j = some (o, RwfMsg.add b t') →
      t.vector = t'.vector → i = j) (by simp) ?_
  intro s r o i s₁ m hs ih _ hp hl
  -- An old add of `r` with the history of the new one would be in `r`'s epoch.
  have hnew : ∀ j b t t' a, s.log j = some (r, .add b t') → m = .add a t →
      t.vector ≠ t'.vector := by
    intro j b t t' a hj hm heq
    rcases rwfPrepare_some (Prod.mk.inj hp).2 with ⟨a', rfl, hpid⟩ | ⟨u, rfl, -⟩ | ⟨rfl, -⟩
    · obtain ⟨-, rfl⟩ := (RwfMsg.add.injEq ..).mp hm
      obtain ⟨l, x, -, hmem, hf⟩ := (rwfObj_epoch hs r).fold
      have hmsg : s.msg j = some (.add b t') := by simp [Sys.msg, hj]
      have hjl : j ∈ l := (hmem j).mpr ⟨hs.wf.own j r _ hj, by simp [rwfTs, hmsg, RwfMsg.t, heq]⟩
      have hle := (epochFold_pid F (F.clear x) (l.filterMap s.msg)).le b t'
        (List.mem_filterMap.mpr ⟨j, hjl, hmsg⟩)
      rw [← hf] at hle
      simp only [hpid, PID_NEXIST] at hle
      omega
    · cases hm
    · cases hm
  intro i' j' o' a b t t' hi' hj' heq
  rcases Obj.issue_log_cases hi' with ⟨rfl, hx⟩ | ⟨-, hi''⟩ <;>
    rcases Obj.issue_log_cases hj' with ⟨rfl, hy⟩ | ⟨-, hj''⟩
  · rfl
  · obtain ⟨rfl, hm⟩ := Prod.mk.inj hx
    exact absurd heq (hnew j' b t t' a hj'' hm.symm)
  · obtain ⟨rfl, hm⟩ := Prod.mk.inj hy
    exact absurd heq.symm (hnew i' a t' t b hi'' hm.symm)
  · exact ih i' j' o' a b t t' hi'' hj'' heq

/-! ## The closed form -/

section Closed

variable {S : Type} {T : Sys (Fin n) S (RwfMsg n A U)} {r q : Fin n}

/-- The pointwise maximum of the histories that replica `r` has received. -/
def rwfJoin (T : Sys (Fin n) S (RwfMsg n A U)) (r : Fin n) : Fin n → ℕ :=
  (T.recv r).sup (rwfTs T.msg)

/-- Replica `r` has applied broadcast `i`, an add of `a` by `o` with the joined history. -/
def AddAt (T : Sys (Fin n) S (RwfMsg n A U)) (r : Fin n) (i : ℕ) (o : Fin n) (a : A) : Prop :=
  i ∈ T.recv r ∧ ∃ t, T.log i = some (o, .add a t) ∧ t.vector = rwfJoin T r

/-- Replica `r` has applied broadcast `i`, an update `u` with the joined history. -/
def UpdAt (T : Sys (Fin n) S (RwfMsg n A U)) (r : Fin n) (i : ℕ) (u : U) : Prop :=
  i ∈ T.recv r ∧ ∃ o t, T.log i = some (o, .upd u t) ∧ t.vector = rwfJoin T r

/-- Broadcast `i`, an add of `a` by `o`, is the winning one: no add with the joined history has a
larger origin. -/
def WinAt (T : Sys (Fin n) S (RwfMsg n A U)) (r : Fin n) (i : ℕ) (o : Fin n) (a : A) : Prop :=
  AddAt T r i o a ∧ ∀ j o' a', AddAt T r j o' a' → o' ≤ o

/-- The header of an element at replica `r` as a function of the messages applied there. -/
structure RehClosed (T : Sys (Fin n) S (RwfMsg n A U)) (r : Fin n) (h : Reh n) : Prop where
  current : h.current.vector = rwfJoin T r
  add : ∀ i o a, WinAt T r i o a → h.pid = (o : ℕ)
  wait : (∀ i o a, ¬ AddAt T r i o a) → (∃ i u, UpdAt T r i u) → h.pid = PID_WAIT_INNATE
  nexist : (∀ i o a, ¬ AddAt T r i o a) → (¬ ∃ i u, UpdAt T r i u) → h.pid = PID_NEXIST

theorem exists_winAt (h : ∃ i o a, AddAt T r i o a) : ∃ i o a, WinAt T r i o a := by
  obtain ⟨i, o, a, hi⟩ := h
  have hfin : {o | ∃ i a, AddAt T r i o a}.Finite := Set.toFinite _
  obtain ⟨o', ⟨j, b, hj⟩, hmax⟩ := hfin.exists_maximal ⟨o, i, a, hi⟩
  refine ⟨j, o', b, hj, fun k p c hk => ?_⟩
  by_contra hlt
  exact hlt (hmax ⟨k, c, hk⟩ (not_le.mp hlt).le)

/-- Of the updates with the joined history that satisfy `p`, one has the greatest value of `f`. -/
theorem exists_max_updAt {K : Type} [LinearOrder K] {p : U → Prop} (f : U → K)
    (h : ∃ i u, UpdAt T r i u ∧ p u) :
    ∃ i u, UpdAt T r i u ∧ p u ∧ ∀ j w, UpdAt T r j w → p w → f w ≤ f u := by
  have hsub : ∀ i, {u | UpdAt T r i u}.Subsingleton := by
    rintro i u ⟨-, o, t, hl, -⟩ w ⟨-, o', t', hl', -⟩
    simp only [hl, Option.some.injEq, Prod.mk.injEq, RwfMsg.upd.injEq] at hl'
    exact hl'.2.1
  have hfin : {u | ∃ i, UpdAt T r i u ∧ p u}.Finite := by
    refine ((T.recv r).finite_toSet.biUnion fun i _ => (hsub i).finite).subset ?_
    rintro u ⟨i, hi, -⟩
    exact Set.mem_biUnion (Finset.mem_coe.mpr hi.1) hi
  obtain ⟨i₀, u₀, hi₀, hp₀⟩ := h
  obtain ⟨u, ⟨i, hi, hp⟩, hmax⟩ := Set.exists_max_image _ f hfin ⟨u₀, i₀, hi₀, hp₀⟩
  exact ⟨i, u, hi, hp, fun j w hj hw => hmax w ⟨j, hj, hw⟩⟩

/-- Replicas that applied the same messages have the same adds and updates with the joined
history. -/
theorem updAt_congr (hD : T.recv r = T.recv q) :
    AddAt T r = AddAt T q ∧ UpdAt T r = UpdAt T q ∧ WinAt T r = WinAt T q := by
  have hJ : rwfJoin T r = rwfJoin T q := by simp only [rwfJoin, hD]
  have hA : AddAt T r = AddAt T q := by funext i o a; simp only [AddAt, hD, hJ]
  exact ⟨hA, by funext i u; simp only [UpdAt, hD, hJ], by funext i o a; simp only [WinAt, hA]⟩

/-- Replicas that applied the same messages have the same closed form. -/
theorem RehClosed.agree {h h' : Reh n} (hr : RehClosed T r h) (hq : RehClosed T q h')
    (hD : T.recv r = T.recv q) :
    h.pid = h'.pid ∧ h.current.vector = h'.current.vector := by
  have hJ : rwfJoin T r = rwfJoin T q := by simp only [rwfJoin, hD]
  obtain ⟨hA, hU, hW⟩ := updAt_congr hD
  refine ⟨?_, hr.current.trans (hJ.trans hq.current.symm)⟩
  by_cases hadd : ∃ i o a, AddAt T r i o a
  · obtain ⟨i, o, a, hw⟩ := exists_winAt hadd
    rw [hr.add i o a hw, hq.add i o a (hW ▸ hw)]
  · simp only [not_exists] at hadd
    by_cases hupd : ∃ i u, UpdAt T r i u
    · rw [hr.wait hadd hupd, hq.wait (hA ▸ hadd) (hU ▸ hupd)]
    · rw [hr.nexist hadd hupd, hq.nexist (hA ▸ hadd) (hU ▸ hupd)]

end Closed

/-- The epoch of a replica: the broadcasts with the joined history, in the order of arrival. -/
structure EpochOf (F : Payload n A U₀ U X) (s : Sys (Fin n) (RwfEle n X) (RwfMsg n A U))
    (r : Fin n) (l : List ℕ) (x : X) : Prop where
  nodup : l.Nodup
  mem : ∀ i, i ∈ l ↔ i ∈ s.recv r ∧ rwfTs s.msg i = rwfJoin s r
  fold : ((s.st r).header.pid, (s.st r).pay) = epochFold F (F.clear x) (l.filterMap s.msg)
  add : ∀ a t, .add a t ∈ l.filterMap s.msg ↔ ∃ i, AddAt s r i t.id a ∧
    s.log i = some (t.id, .add a t)
  upd : ∀ u, (∃ t, .upd u t ∈ l.filterMap s.msg) ↔ ∃ i, UpdAt s r i u

theorem rwfObj_epochOf (hs : (rwfObj F).Reach G s) (r : Fin n) : ∃ l x, EpochOf F s r l x := by
  have hE := rwfObj_epoch hs r
  obtain ⟨l, x, hnd, hmem, hf⟩ := hE.fold
  have hmem' : ∀ i, i ∈ l ↔ i ∈ s.recv r ∧ rwfTs s.msg i = rwfJoin s r := by
    intro i; rw [hmem, hE.current]; rfl
  have hL : ∀ m, m ∈ l.filterMap s.msg ↔
      ∃ i ∈ s.recv r, s.log i = some (m.t.id, m) ∧ m.t.vector = rwfJoin s r := by
    intro m
    simp only [List.mem_filterMap, hmem']
    constructor
    · rintro ⟨i, ⟨hi, hts⟩, hm⟩
      obtain ⟨⟨o, m'⟩, hl, rfl⟩ := Option.map_eq_some_iff.mp hm
      exact ⟨i, hi, rwf_origin hs i o m' hl ▸ hl, by simpa [rwfTs, hm] using hts⟩
    · rintro ⟨i, hi, hl, ht⟩
      have hm : s.msg i = some m := by simp [Sys.msg, hl]
      exact ⟨i, ⟨hi, by simpa [rwfTs, hm] using ht⟩, hm⟩
  refine ⟨l, x, hnd, hmem', hf, fun a t => ?_, fun u => ?_⟩
  · rw [hL]
    constructor
    · rintro ⟨i, hi, hl, ht⟩
      exact ⟨i, ⟨hi, t, hl, ht⟩, hl⟩
    · rintro ⟨i, ⟨hi, t', hl', ht'⟩, hl⟩
      obtain rfl : t = t' := by simpa [hl] using hl'
      exact ⟨i, hi, hl, ht'⟩
  · simp only [hL]
    constructor
    · rintro ⟨t, i, hi, hl, ht⟩
      exact ⟨i, hi, t.id, t, hl, ht⟩
    · rintro ⟨i, hi, o, t, hl, ht⟩
      obtain rfl : t.id = o := rwf_origin hs i o _ hl
      exact ⟨t, i, hi, hl, ht⟩

/-- The adds of an epoch with one id are one add. -/
theorem EpochOf.add_unique {r : Fin n} {l : List ℕ} {x : X} (h : EpochOf F s r l x)
    (hs : (rwfObj F).Reach G s) {i : ℕ} {o : Fin n} {a b : A} {t : Clock n}
    (hi : AddAt s r i o a) (hb : .add b t ∈ l.filterMap s.msg) (ht : t.id = o) : b = a := by
  obtain ⟨-, t₁, hl₁, hv₁⟩ := hi
  obtain ⟨j, ⟨-, t₂, hl₂, hv₂⟩, -⟩ := (h.add b t).mp hb
  obtain rfl := CrdtRedis.add_unique hs i j o a b t₁ t₂ hl₁ (ht ▸ hl₂) (hv₁.trans hv₂.symm)
  simp only [hl₁, Option.some.injEq, Prod.mk.injEq, RwfMsg.add.injEq] at hl₂
  exact hl₂.2.1.symm

/-- **The header of every element is the closed form**, in every reachable state. -/
theorem rwfObj_closed (hs : (rwfObj F).Reach G s) (r : Fin n) :
    RehClosed s r (s.st r).header := by
  obtain ⟨l, x, hl⟩ := rwfObj_epochOf hs r
  have hpid : PidSpec (l.filterMap s.msg) (s.st r).header.pid := by
    have := epochFold_pid F (F.clear x) (l.filterMap s.msg)
    rwa [← hl.fold] at this
  have hno : (∀ i o a, ¬ AddAt s r i o a) →
      (s.st r).header.pid = PID_NEXIST ∨ (s.st r).header.pid = PID_WAIT_INNATE := by
    intro hn
    rcases hpid.cases with h | h | ⟨a, t, h, -⟩
    · exact .inl h
    · exact .inr h
    · obtain ⟨i, hi, -⟩ := (hl.add a t).mp h
      exact absurd hi (hn i t.id a)
  refine ⟨(rwfObj_epoch hs r).current, ?_, fun hn hu => ?_, fun hn hu => ?_⟩
  · rintro i o a ⟨⟨hi, t, hli, ht⟩, hmax⟩
    obtain rfl : t.id = o := rwf_origin hs i o _ hli
    have hle := hpid.le a t ((hl.add a t).mpr ⟨i, ⟨hi, t, hli, ht⟩, hli⟩)
    rcases hpid.cases with h | h | ⟨b, t', hb, hp⟩
    · simp only [h, PID_NEXIST] at hle; omega
    · simp only [h, PID_WAIT_INNATE] at hle; omega
    · obtain ⟨j, hj, -⟩ := (hl.add b t').mp hb
      have := hmax j t'.id b hj
      omega
  · refine (hno hn).resolve_left fun h => ?_
    obtain ⟨i, u, hi⟩ := hu
    obtain ⟨t, ht⟩ := (hl.upd u).mpr ⟨i, hi⟩
    exact hpid.nexist h u t ht
  · refine (hno hn).resolve_right fun h => hu ?_
    obtain ⟨u, t, ht⟩ := hpid.wait h
    obtain ⟨i, hi⟩ := (hl.upd u).mp ⟨t, ht⟩
    exact ⟨i, u, hi⟩

end CrdtRedis
