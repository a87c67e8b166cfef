import Mathlib.Algebra.BigOperators.Group.Finset.Basic
import Mathlib.Data.Finset.Lattice.Fold
import Mathlib.Tactic

/-!
# Replicated objects and broadcast systems

An operation-based replicated object (`Obj`) has a `prepare` phase, which reads the state of one
replica and either rejects a command or makes a message, and an `effect` phase, which applies a
message. A system (`Sys`) runs one copy of the object at each replica: an accepted command is
applied at once where it was issued and broadcast; every other replica applies the broadcast at
most once, at any later time (`Obj.step`).

* `Obj.Reach G`: the states that a run reaches when every event satisfies the guard `G`.
  `anyOrder` is no guard at all; `fifo` lets a replica receive the broadcasts of one origin only
  in the order in which they were sent.
* `Obj.step_cases`: what one event can do. Every invariant below is proved from it.
* `Reach.rule`: an invariant that holds initially, and that a rejected command, an accepted
  command and a delivery keep, holds in every reachable state.
* `Obj.run`: the run of a list of events, to evaluate a concrete one.
-/

namespace Broadcast

/-- An operation-based replicated object: replicas `R`, states `S`, commands `O`, messages `M`.
A rejected command may still change the state of the replica that read it. -/
structure Obj (R S O M : Type) where
  init : R → S
  prepare : R → S → O → S × Option M
  effect : R → S → M → S

/-- The state of a system. -/
@[ext] structure Sys (R S M : Type) where
  /-- The state of each replica. -/
  st : R → S
  /-- The broadcasts so far, by their identifier, with their origin. -/
  log : ℕ → Option (R × M)
  /-- The identifiers of the broadcasts of each origin, oldest first. -/
  sent : R → List ℕ
  /-- The broadcasts that each replica has received, its own included. -/
  recv : R → Finset ℕ

/-- The message of broadcast `i`. -/
def Sys.msg {R S M : Type} (s : Sys R S M) (i : ℕ) : Option M := (s.log i).map (·.2)

/-- An event: replica `r` runs command `o` (the broadcast, if any, gets identifier `i`), or
replica `r` receives broadcast `i`. -/
inductive Ev (R O : Type) where
  | op (r : R) (o : O) (i : ℕ)
  | recv (r : R) (i : ℕ)

variable {R S O M : Type} [DecidableEq R]

namespace Obj

variable (P : Obj R S O M)

/-- No command has run. -/
def start : Sys R S M where
  st := P.init
  log _ := none
  sent _ := []
  recv _ := ∅

/-- A command that is rejected leaves replica `r` in state `s₁`. -/
def reject (s : Sys R S M) (r : R) (s₁ : S) : Sys R S M :=
  { s with st := Function.update s.st r s₁ }

/-- Replica `r`, in state `s₁` after its prepare phase, applies and broadcasts `m`. -/
def issue (s : Sys R S M) (r : R) (i : ℕ) (s₁ : S) (m : M) : Sys R S M where
  st := Function.update s.st r (P.effect r s₁ m)
  log := Function.update s.log i (some (r, m))
  sent := Function.update s.sent r (s.sent r ++ [i])
  recv := Function.update s.recv r (insert i (s.recv r))

/-- Replica `r` receives and applies broadcast `i`. -/
def deliver (s : Sys R S M) (r : R) (i : ℕ) (m : M) : Sys R S M :=
  { s with
    st := Function.update s.st r (P.effect r (s.st r) m)
    recv := Function.update s.recv r (insert i (s.recv r)) }

/-- One event. A broadcast takes an identifier that is not in use, and is received once. -/
def step (s : Sys R S M) : Ev R O → Option (Sys R S M)
  | .op r o i =>
    match P.prepare r (s.st r) o with
    | (s₁, none) => some (reject s r s₁)
    | (s₁, some m) => if (s.log i).isNone then some (P.issue s r i s₁ m) else none
  | .recv r i =>
    match s.log i with
    | some (_, m) => if i ∈ s.recv r then none else some (P.deliver s r i m)
    | none => none

/-- The states that a run whose events satisfy `G` reaches. -/
inductive Reach (G : Sys R S M → Ev R O → Prop) : Sys R S M → Prop
  | start : Reach G P.start
  | step {s s' : Sys R S M} (e : Ev R O) : Reach G s → G s e → P.step s e = some s' → Reach G s'

end Obj

/-- Every order of delivery. -/
def anyOrder (_ : Sys R S M) (_ : Ev R O) : Prop := True

/-- The broadcasts of one origin are received in the order in which they were sent. -/
def fifo (s : Sys R S M) : Ev R O → Prop
  | .op _ _ _ => True
  | .recv r i => ∀ o m, s.log i = some (o, m) →
      ∀ j ∈ (s.sent o).takeWhile (· ≠ i), j ∈ s.recv r

namespace Obj

variable {P : Obj R S O M} {G : Sys R S M → Ev R O → Prop} {s s' : Sys R S M}

/-! ## The fields after one event -/

section Fields

variable {r q : R} {i j : ℕ} {s₁ : S} {m : M}

@[simp] theorem reject_st_self : (reject s r s₁).st r = s₁ := by simp [reject]
@[simp] theorem reject_log : (reject s r s₁).log = s.log := rfl
@[simp] theorem reject_sent : (reject s r s₁).sent = s.sent := rfl
@[simp] theorem reject_recv : (reject s r s₁).recv = s.recv := rfl

theorem reject_st_ne (h : q ≠ r) : (reject s r s₁).st q = s.st q := by simp [reject, h]

@[simp] theorem issue_st_self : (P.issue s r i s₁ m).st r = P.effect r s₁ m := by simp [issue]
@[simp] theorem issue_log_self : (P.issue s r i s₁ m).log i = some (r, m) := by simp [issue]
@[simp] theorem issue_recv_self : (P.issue s r i s₁ m).recv r = insert i (s.recv r) := by
  simp [issue]

@[simp] theorem issue_sent_self : (P.issue s r i s₁ m).sent r = s.sent r ++ [i] := by simp [issue]

theorem issue_st_ne (h : q ≠ r) : (P.issue s r i s₁ m).st q = s.st q := by simp [issue, h]
theorem issue_log_ne (h : j ≠ i) : (P.issue s r i s₁ m).log j = s.log j := by simp [issue, h]
theorem issue_sent_ne (h : q ≠ r) : (P.issue s r i s₁ m).sent q = s.sent q := by simp [issue, h]
theorem issue_recv_ne (h : q ≠ r) : (P.issue s r i s₁ m).recv q = s.recv q := by simp [issue, h]

@[simp] theorem deliver_st_self : (P.deliver s r i m).st r = P.effect r (s.st r) m := by
  simp [deliver]
@[simp] theorem deliver_log : (P.deliver s r i m).log = s.log := rfl
@[simp] theorem deliver_sent : (P.deliver s r i m).sent = s.sent := rfl
@[simp] theorem deliver_recv_self : (P.deliver s r i m).recv r = insert i (s.recv r) := by
  simp [deliver]

theorem deliver_st_ne (h : q ≠ r) : (P.deliver s r i m).st q = s.st q := by simp [deliver, h]
theorem deliver_recv_ne (h : q ≠ r) : (P.deliver s r i m).recv q = s.recv q := by
  simp [deliver, h]

/-- The log only grows. -/
theorem issue_log_of_some {x : R × M} (hi : s.log i = none) (h : s.log j = some x) :
    (P.issue s r i s₁ m).log j = some x := by
  rw [issue_log_ne, h]
  rintro rfl
  simp [hi] at h

/-- An entry of the log after an accepted command is the new broadcast, or it was there. -/
theorem issue_log_cases {x : R × M} (h : (P.issue s r i s₁ m).log j = some x) :
    (j = i ∧ x = (r, m)) ∨ (j ≠ i ∧ s.log j = some x) := by
  by_cases hj : j = i
  · subst hj
    simp only [issue_log_self, Option.some.injEq] at h
    exact .inl ⟨rfl, h.symm⟩
  · rw [issue_log_ne hj] at h
    exact .inr ⟨hj, h⟩

end Fields

/-- What one event can do. -/
theorem step_cases {e : Ev R O} (h : P.step s e = some s') :
    (∃ r o i s₁, e = .op r o i ∧ P.prepare r (s.st r) o = (s₁, none) ∧ s' = reject s r s₁) ∨
    (∃ r o i s₁ m, e = .op r o i ∧ P.prepare r (s.st r) o = (s₁, some m) ∧ s.log i = none ∧
      s' = P.issue s r i s₁ m) ∨
    (∃ r i o m, e = .recv r i ∧ s.log i = some (o, m) ∧ i ∉ s.recv r ∧ s' = P.deliver s r i m) := by
  cases e with
  | op r o i =>
    simp only [step] at h
    split at h
    · rename_i s₁ hp
      exact .inl ⟨r, o, i, s₁, rfl, hp, by simpa using h.symm⟩
    · rename_i s₁ m hp
      split at h
      · rename_i hi
        exact .inr (.inl ⟨r, o, i, s₁, m, rfl, hp, by simpa using hi, by simpa using h.symm⟩)
      · cases h
  | recv r i =>
    simp only [step] at h
    split at h
    · rename_i o m hl
      split at h
      · cases h
      · rename_i hi
        exact .inr (.inr ⟨r, i, o, m, rfl, hl, hi, by simpa using h.symm⟩)
    · cases h

/-- An invariant holds in every reachable state if it holds initially and a rejected command, an
accepted command and a delivery keep it. -/
theorem Reach.rule {I : Sys R S M → Prop} (hs : P.Reach G s) (start : I P.start)
    (reject : ∀ s r o i s₁, P.Reach G s → I s → G s (.op r o i) →
      P.prepare r (s.st r) o = (s₁, none) → I (Obj.reject s r s₁))
    (issue : ∀ s r o i s₁ m, P.Reach G s → I s → G s (.op r o i) →
      P.prepare r (s.st r) o = (s₁, some m) → s.log i = none → I (P.issue s r i s₁ m))
    (deliver : ∀ s r i o m, P.Reach G s → I s → G s (.recv r i) → s.log i = some (o, m) →
      i ∉ s.recv r → I (P.deliver s r i m)) : I s := by
  induction hs with
  | start => exact start
  | step e hs hg h ih =>
    obtain ⟨r, o, i, s₁, rfl, hp, rfl⟩ | ⟨r, o, i, s₁, m, rfl, hp, hl, rfl⟩ |
      ⟨r, i, o, m, rfl, hl, hi, rfl⟩ := step_cases h
    · exact reject _ r o i s₁ hs ih hg hp
    · exact issue _ r o i s₁ m hs ih hg hp hl
    · exact deliver _ r i o m hs ih hg hl hi

/-- An invariant of the log alone: only an accepted command changes it. -/
theorem Reach.log_rule {I : (ℕ → Option (R × M)) → Prop} (hs : P.Reach G s)
    (start : I fun _ => none)
    (issue : ∀ s r o i s₁ m, P.Reach G s → I s.log → G s (.op r o i) →
      P.prepare r (s.st r) o = (s₁, some m) → s.log i = none → I (P.issue s r i s₁ m).log) :
    I s.log := by
  refine hs.rule (I := fun s => I s.log) start ?_ issue ?_
  · intro s r o i s₁ _ ih _ _
    exact ih
  · intro s r i o m _ ih _ _ _
    exact ih

/-- A property of every message and its origin: every accepted command has it. -/
theorem Reach.msg_rule {Q : R → M → Prop} (hs : P.Reach G s)
    (issue : ∀ s r o i s₁ m, P.Reach G s → G s (.op r o i) →
      P.prepare r (s.st r) o = (s₁, some m) → Q r m) :
    ∀ i o m, s.log i = some (o, m) → Q o m := by
  refine hs.log_rule (I := fun log => ∀ i o m, log i = some (o, m) → Q o m) (by simp) ?_
  intro s r o i s₁ m hs ih hg hp _ j o' m' hj
  rcases issue_log_cases hj with ⟨-, hx⟩ | ⟨-, hj⟩
  · cases hx
    exact issue s r o i s₁ m hs hg hp
  · exact ih j o' m' hj

/-- An invariant of the state of each replica, with a property of the messages that it needs: an
accepted command keeps it and gives its message the property, and a delivery keeps it. -/
theorem Reach.local_rule {I : R → S → Prop} {Q : M → Prop} (hs : P.Reach G s)
    (init : ∀ r, I r (P.init r))
    (prepare : ∀ s r o i x₁ m, P.Reach G s → I r (s.st r) → G s (.op r o i) →
      P.prepare r (s.st r) o = (x₁, m) → I r x₁ ∧ ∀ m' ∈ m, Q m' ∧ I r (P.effect r x₁ m'))
    (deliver : ∀ s r i o m, P.Reach G s → I r (s.st r) → G s (.recv r i) →
      s.log i = some (o, m) → Q m → I r (P.effect r (s.st r) m)) :
    (∀ r, I r (s.st r)) ∧ ∀ i o m, s.log i = some (o, m) → Q m := by
  refine hs.rule (I := fun s => (∀ r, I r (s.st r)) ∧ ∀ i o m, s.log i = some (o, m) → Q m)
    ⟨init, by simp [Obj.start]⟩ ?_ ?_ ?_
  · rintro s r o i s₁ hs ⟨ih, hlog⟩ hg hp
    refine ⟨fun q => ?_, hlog⟩
    by_cases hq : q = r
    · subst hq; rw [reject_st_self]; exact (prepare s q o i s₁ none hs (ih q) hg hp).1
    · rw [reject_st_ne hq]; exact ih q
  · rintro s r o i s₁ m hs ⟨ih, hlog⟩ hg hp _
    obtain ⟨hm, he⟩ := (prepare s r o i s₁ (some m) hs (ih r) hg hp).2 m rfl
    refine ⟨fun q => ?_, fun j o' m' hj => ?_⟩
    · by_cases hq : q = r
      · subst hq; rw [issue_st_self]; exact he
      · rw [issue_st_ne hq]; exact ih q
    · rcases issue_log_cases hj with ⟨-, hx⟩ | ⟨-, hj⟩
      · cases hx; exact hm
      · exact hlog j o' m' hj
  · rintro s r i o m hs ⟨ih, hlog⟩ hg hl _
    refine ⟨fun q => ?_, hlog⟩
    by_cases hq : q = r
    · subst hq; rw [deliver_st_self]; exact deliver s q i o m hs (ih q) hg hl (hlog i o m hl)
    · rw [deliver_st_ne hq]; exact ih q

/-- An invariant of the state of each replica alone: both phases keep it. -/
theorem Reach.st_rule {I : R → S → Prop} (hs : P.Reach G s) (init : ∀ r, I r (P.init r))
    (prepare : ∀ r x o x₁ m, I r x → P.prepare r x o = (x₁, m) → I r x₁)
    (effect : ∀ r x m, I r x → I r (P.effect r x m)) : ∀ r, I r (s.st r) := by
  refine (hs.local_rule (Q := fun _ => True) init ?_ ?_).1
  · intro s r o i x₁ m _ ih _ hp
    have h₁ := prepare r (s.st r) o x₁ m ih hp
    exact ⟨h₁, fun m' _ => ⟨trivial, effect r x₁ m' h₁⟩⟩
  · intro s r i o m _ ih _ _ _
    exact effect r (s.st r) m ih

/-- A weaker guard reaches more states. -/
theorem Reach.mono {G' : Sys R S M → Ev R O → Prop} (hG : ∀ s e, G s e → G' s e)
    (hs : P.Reach G s) : P.Reach G' s := by
  induction hs with
  | start => exact .start
  | step e _ hg h ih => exact .step e ih (hG _ _ hg) h

/-- What holds of the log and of the received broadcasts of every object: a replica has received
its own broadcasts, and nothing that was not sent. -/
structure Wf (s : Sys R S M) : Prop where
  own : ∀ i o m, s.log i = some (o, m) → i ∈ s.recv o
  log : ∀ r, ∀ i ∈ s.recv r, ∃ o m, s.log i = some (o, m)
  sent : ∀ r, ∀ i ∈ s.sent r, ∃ m, s.log i = some (r, m)

omit [DecidableEq R] in
/-- No replica has received a broadcast that was not sent. -/
theorem Wf.notMem_recv (h : Wf s) (hl : s.log i = none) (q : R) : i ∉ s.recv q := by
  intro hi
  obtain ⟨o, m, hl'⟩ := h.log q i hi
  rw [hl] at hl'
  cases hl'

/-- A new message is not one that was received. -/
theorem Wf.issue_log_recv (h : Wf s) (hl : s.log i = none) (hj : j ∈ s.recv q) :
    (P.issue s r i s₁ m).log j = s.log j := by
  refine issue_log_ne ?_
  rintro rfl
  exact h.notMem_recv hl q hj

theorem Reach.wf (hs : P.Reach G s) : Wf s := by
  refine hs.rule ⟨by simp [Obj.start], by simp [Obj.start], by simp [Obj.start]⟩
    (fun _ _ _ _ _ _ h _ _ => ⟨h.own, h.log, h.sent⟩) ?_ ?_
  · intro s r o i s₁ m _ h _ _ hl
    refine ⟨fun j q m' hj => ?_, fun q j hj => ?_, fun q j hj => ?_⟩
    · rcases issue_log_cases hj with ⟨rfl, hx⟩ | ⟨-, hj'⟩
      · cases hx; simp
      · by_cases hq : q = r
        · subst hq; simp [h.own j q m' hj']
        · rw [issue_recv_ne hq]; exact h.own j q m' hj'
    · have hj' : j = i ∨ j ∈ s.recv q := by
        by_cases hq : q = r
        · subst hq; simpa using hj
        · rw [issue_recv_ne hq] at hj; exact .inr hj
      rcases hj' with rfl | hj'
      · exact ⟨r, m, issue_log_self⟩
      · obtain ⟨o', m', hj'⟩ := h.log q j hj'
        exact ⟨o', m', issue_log_of_some hl hj'⟩
    · have hj' : (q = r ∧ j = i) ∨ j ∈ s.sent q := by
        by_cases hq : q = r
        · subst hq; simpa [or_comm] using hj
        · rw [issue_sent_ne hq] at hj; exact .inr hj
      rcases hj' with ⟨rfl, rfl⟩ | hj'
      · exact ⟨m, issue_log_self⟩
      · obtain ⟨m', hj'⟩ := h.sent q j hj'
        exact ⟨m', issue_log_of_some hl hj'⟩
  · intro s r i o m _ h _ hl hi
    refine ⟨fun j q m' hj => ?_, fun q j hj => ?_, h.sent⟩
    · by_cases hq : q = r
      · subst hq; simp [h.own j q m' hj]
      · rw [deliver_recv_ne hq]; exact h.own j q m' hj
    · by_cases hq : q = r
      · subst hq
        simp only [deliver_recv_self, Finset.mem_insert] at hj
        rcases hj with rfl | hj
        · exact ⟨o, m, hl⟩
        · exact h.log q j hj
      · rw [deliver_recv_ne hq] at hj; exact h.log q j hj

/-- A part `f` of the state that no prepare phase changes is the fold of the messages received, in
some order. -/
theorem Reach.fold {X : Type} {f : R → S → X} {g : R → X → M → X} (hs : P.Reach G s)
    (prepare : ∀ r x o x₁ m, P.prepare r x o = (x₁, m) → f r x₁ = f r x)
    (effect : ∀ r x m, f r (P.effect r x m) = g r (f r x) m) (r : R) :
    ∃ l : List ℕ, l.Nodup ∧ (∀ i, i ∈ l ↔ i ∈ s.recv r) ∧
      f r (s.st r) = (l.filterMap s.msg).foldl (g r) (f r (P.init r)) := by
  refine hs.rule (I := fun s => ∀ r, ∃ l : List ℕ, l.Nodup ∧ (∀ i, i ∈ l ↔ i ∈ s.recv r) ∧
    f r (s.st r) = (l.filterMap s.msg).foldl (g r) (f r (P.init r))) ?_ ?_ ?_ ?_ r
  · exact fun r => ⟨[], List.nodup_nil, by simp [Obj.start], rfl⟩
  · intro s r o i s₁ _ ih _ hp q
    obtain ⟨l, hnd, hmem, hf⟩ := ih q
    refine ⟨l, hnd, hmem, ?_⟩
    by_cases hq : q = r
    · subst hq; rw [reject_st_self, prepare q _ o _ _ hp]; exact hf
    · rw [reject_st_ne hq]; exact hf
  · intro s r o i s₁ m hs ih _ hp hl q
    obtain ⟨l, hnd, hmem, hf⟩ := ih q
    have hil : i ∉ l := fun hi => hs.wf.notMem_recv hl q ((hmem i).mp hi)
    have hmsg : l.filterMap (P.issue s r i s₁ m).msg = l.filterMap s.msg :=
      List.filterMap_congr fun j hj => by
        rw [Sys.msg, Sys.msg, hs.wf.issue_log_recv hl ((hmem j).mp hj)]
    by_cases hq : q = r
    · subst hq
      refine ⟨l ++ [i], hnd.append (List.nodup_singleton i) (by simpa using hil), fun j => ?_, ?_⟩
      · simp [hmem, or_comm]
      · have hi : (P.issue s q i s₁ m).msg i = some m := by simp [Sys.msg]
        rw [issue_st_self, effect, prepare q _ o _ _ hp, hf, List.filterMap_append, hmsg]
        simp [hi]
    · refine ⟨l, hnd, fun j => ?_, ?_⟩
      · rw [issue_recv_ne hq]; exact hmem j
      · rw [issue_st_ne hq, hmsg]; exact hf
  · intro s r i o m hs ih _ hl hi q
    obtain ⟨l, hnd, hmem, hf⟩ := ih q
    have hmsg : (P.deliver s r i m).msg = s.msg := rfl
    by_cases hq : q = r
    · subst hq
      have hil : i ∉ l := fun h => hi ((hmem i).mp h)
      refine ⟨l ++ [i], hnd.append (List.nodup_singleton i) (by simpa using hil), fun j => ?_, ?_⟩
      · simp [hmem, or_comm]
      · have hi : s.msg i = some m := by simp [Sys.msg, hl]
        rw [deliver_st_self, effect, hf, List.filterMap_append, hmsg]
        simp [hi]
    · refine ⟨l, hnd, fun j => ?_, ?_⟩
      · rw [deliver_recv_ne hq]; exact hmem j
      · rw [deliver_st_ne hq, hmsg]; exact hf

omit [DecidableEq R] in
/-- A sum over the messages of a list of broadcasts, as one over the broadcasts. -/
theorem sum_filterMap {A : Type} [AddCommMonoid A] (μ : ℕ → Option M) (w : M → A) {l : List ℕ}
    (hl : l.Nodup) :
    ((l.filterMap μ).map w).sum = ∑ i ∈ l.toFinset, ((μ i).map w).getD 0 := by
  rw [List.sum_toFinset _ hl]
  induction l with
  | nil => rfl
  | cons i l ih =>
    cases h : μ i <;> simp [h, ih (List.nodup_cons.mp hl).2]

/-! ## Concrete runs

The replicas of a concrete run are numbered: `Fin 2`, `Fin 3` or `Fin 4`. -/

instance neZeroTwo : NeZero 2 := ⟨by decide⟩
instance neZeroThree : NeZero 3 := ⟨by decide⟩
instance neZeroFour : NeZero 4 := ⟨by decide⟩

/-- The state after the events `es`, if every one of them can happen. -/
def run (P : Obj R S O M) : List (Ev R O) → Sys R S M → Option (Sys R S M)
  | [], s => some s
  | e :: es, s => (P.step s e).bind (run P es)

/-- A run keeps the broadcasts. -/
theorem run_log {i : ℕ} {x : R × M} {es : List (Ev R O)} (h : run P es s = some s')
    (hi : s.log i = some x) : s'.log i = some x := by
  induction es generalizing s with
  | nil =>
    cases h
    exact hi
  | cons e es ih =>
    obtain ⟨s₁, hs₁, h⟩ := Option.bind_eq_some_iff.mp h
    refine ih h ?_
    obtain ⟨r, o, j, x₁, -, -, rfl⟩ | ⟨r, o, j, x₁, m, -, -, hl, rfl⟩ |
      ⟨r, j, o, m, -, -, -, rfl⟩ := step_cases hs₁
    · exact hi
    · exact issue_log_of_some hl hi
    · exact hi

/-- The state after the events `es`, from the start. -/
def runOf (P : Obj R S O M) (es : List (Ev R O)) : Sys R S M := (run P es P.start).getD P.start

/-- Every event of the run satisfies the guard `g`, a decidable form of `G`. -/
def runOk (P : Obj R S O M) (g : Sys R S M → Ev R O → Bool) :
    List (Ev R O) → Sys R S M → Bool
  | [], _ => true
  | e :: es, s => g s e && ((P.step s e).map (runOk P g es)).getD false

theorem Reach.of_run {g : Sys R S M → Ev R O → Bool} (hg : ∀ s e, g s e = true → G s e)
    (es : List (Ev R O)) (hs : P.Reach G s) (h : runOk P g es s = true) :
    ∃ s', run P es s = some s' ∧ P.Reach G s' := by
  induction es generalizing s with
  | nil => exact ⟨s, rfl, hs⟩
  | cons e es ih =>
    simp only [runOk, Bool.and_eq_true] at h
    obtain ⟨he, h⟩ := h
    cases hst : P.step s e with
    | none => simp [hst] at h
    | some s' =>
      obtain ⟨s'', hr, hs''⟩ := ih (.step e hs (hg s e he) hst) (by simpa [hst] using h)
      exact ⟨s'', by simp [run, hst, hr], hs''⟩

theorem run_append (es es' : List (Ev R O)) (s : Sys R S M) :
    run P (es ++ es') s = (run P es s).bind (run P es') := by
  induction es generalizing s with
  | nil => rfl
  | cons e es ih =>
    simp only [List.cons_append, run, Option.bind_assoc]
    exact Option.bind_congr fun s' _ => ih s'

/-- A part of a run whose events satisfy the guard goes on with the rest. -/
theorem run_runOf {g : Sys R S M → Ev R O → Bool} (es es' : List (Ev R O))
    (h : runOk P g (es ++ es') P.start = true) :
    run P es' (P.runOf es) = some (P.runOf (es ++ es')) := by
  obtain ⟨s', hr, -⟩ := Reach.of_run (G := fun s e => g s e = true) (fun _ _ h => h) _ .start h
  obtain ⟨s₁, hr₁, hr₂⟩ := Option.bind_eq_some_iff.mp ((run_append es es' P.start).symm.trans hr)
  simp [runOf, hr₁, hr₂, hr]

/-- A test for `fifo`. -/
def fifoOk (s : Sys R S M) : Ev R O → Bool
  | .op _ _ _ => true
  | .recv r i => (s.log i).all fun x => ((s.sent x.1).takeWhile (· ≠ i)).all (· ∈ s.recv r)

omit [DecidableEq R] in
theorem fifo_of_fifoOk (s : Sys R S M) (e : Ev R O) (h : fifoOk s e = true) : fifo s e := by
  cases e with
  | op r o i => trivial
  | recv r i =>
    intro o m hl j hj
    simp only [fifoOk, hl, Option.all_some, List.all_eq_true] at h
    simpa using h j hj

/-- The state of a concrete run whose events satisfy the guard is reachable. -/
theorem reach_runOf {g : Sys R S M → Ev R O → Bool} (hg : ∀ s e, g s e = true → G s e)
    (es : List (Ev R O)) (h : runOk P g es P.start = true) : P.Reach G (P.runOf es) := by
  obtain ⟨s', hr, hs'⟩ := Reach.of_run hg es .start h
  simpa [runOf, hr] using hs'

end Obj

end Broadcast
