import Mathlib.Logic.Relation
import CrdtRedis.Broadcast.Sys

/-!
# What came before a broadcast

`Obj.Hist G s past` is `Obj.Reach G s` with a record of the run: `past j` are the broadcasts that
the origin of `j` had issued or received when it issued `j`. The record is not part of the state
and no replica reads it (`Reach.hist`: every run has one).

* `Before s past i j`: `i` happened before `j`, the transitive closure of `i ∈ past j` over the
  broadcasts in the log of `s`. The log of a view (`View.sys`) has fewer broadcasts, and `Before`
  is then the order that these broadcasts alone make.
* `Hist.rule`: the rule of invariants (`Reach.rule`) with the record.
* `PastWf`: the record holds broadcasts that were sent, and a replica's own earlier ones.
* `Obj.pastOf`: the record of a list of events.
-/

namespace Broadcast

variable {R S O M : Type} [DecidableEq R]

namespace Obj

variable (P : Obj R S O M)

/-- The record after an event: an accepted command has before it what its replica has received. -/
def addPast (s : Sys R S M) (past : ℕ → Finset ℕ) : Ev R O → ℕ → Finset ℕ
  | .op r o i =>
    match P.prepare r (s.st r) o with
    | (_, none) => past
    | (_, some _) => Function.update past i (s.recv r)
  | .recv _ _ => past

/-- The states that a run whose events satisfy `G` reaches, with the record of the run. -/
inductive Hist (G : Sys R S M → Ev R O → Prop) : Sys R S M → (ℕ → Finset ℕ) → Prop
  | start : Hist G P.start fun _ => ∅
  | step {s s' : Sys R S M} {past : ℕ → Finset ℕ} (e : Ev R O) : Hist G s past → G s e →
      P.step s e = some s' → Hist G s' (P.addPast s past e)

end Obj

omit [DecidableEq R] in
/-- Broadcast `i` happened before broadcast `j`. -/
def Before (s : Sys R S M) (past : ℕ → Finset ℕ) : ℕ → ℕ → Prop :=
  Relation.TransGen fun i j => i ∈ past j ∧ (s.log i).isSome ∧ (s.log j).isSome

namespace Obj

variable {P : Obj R S O M} {G : Sys R S M → Ev R O → Prop} {s s' : Sys R S M}
  {past : ℕ → Finset ℕ}

theorem Hist.reach (hs : P.Hist G s past) : P.Reach G s := by
  induction hs with
  | start => exact .start
  | step e _ hg h ih => exact .step e ih hg h

theorem Reach.hist (hs : P.Reach G s) : ∃ past, P.Hist G s past := by
  induction hs with
  | start => exact ⟨_, .start⟩
  | step e _ hg h ih =>
    obtain ⟨past, ih⟩ := ih
    exact ⟨_, .step e ih hg h⟩

/-- An invariant of the state and the record. -/
theorem Hist.rule {I : Sys R S M → (ℕ → Finset ℕ) → Prop} (hs : P.Hist G s past)
    (start : I P.start fun _ => ∅)
    (reject : ∀ s past r o i s₁, P.Hist G s past → I s past → G s (.op r o i) →
      P.prepare r (s.st r) o = (s₁, none) → I (Obj.reject s r s₁) past)
    (issue : ∀ s past r o i s₁ m, P.Hist G s past → I s past → G s (.op r o i) →
      P.prepare r (s.st r) o = (s₁, some m) → s.log i = none →
      I (P.issue s r i s₁ m) (Function.update past i (s.recv r)))
    (deliver : ∀ s past r i o m, P.Hist G s past → I s past → G s (.recv r i) →
      s.log i = some (o, m) → i ∉ s.recv r → I (P.deliver s r i m) past) : I s past := by
  induction hs with
  | start => exact start
  | step e hs hg h ih =>
    obtain ⟨r, o, i, s₁, rfl, hp, rfl⟩ | ⟨r, o, i, s₁, m, rfl, hp, hl, rfl⟩ |
      ⟨r, i, o, m, rfl, hl, hi, rfl⟩ := step_cases h
    · simpa only [addPast, hp] using reject _ _ r o i s₁ hs ih hg hp
    · simpa only [addPast, hp] using issue _ _ r o i s₁ m hs ih hg hp hl
    · exact deliver _ _ r i o m hs ih hg hl hi

theorem issue_log_isSome {i j : ℕ} {r : R} {s₁ : S} {m : M} (hl : s.log i = none)
    (hj : (s.log j).isSome) : ((P.issue s r i s₁ m).log j).isSome := by
  obtain ⟨x, hx⟩ := Option.isSome_iff_exists.mp hj
  simp [issue_log_of_some hl hx]

/-- What holds of the record of every run. -/
structure PastWf (s : Sys R S M) (past : ℕ → Finset ℕ) : Prop where
  log : ∀ j, ∀ i ∈ past j, (s.log i).isSome
  sent : ∀ o, (s.sent o).Pairwise fun i j => i ∈ past j
  mem_sent : ∀ i o m, s.log i = some (o, m) → i ∈ s.sent o

theorem Hist.pastWf (hs : P.Hist G s past) : PastWf s past := by
  refine hs.rule ⟨by simp, by simp [Obj.start], by simp [Obj.start]⟩
    (fun _ _ _ _ _ _ _ h _ _ => ⟨h.log, h.sent, h.mem_sent⟩) ?_
    (fun _ _ _ _ _ _ _ h _ _ _ => ⟨h.log, h.sent, h.mem_sent⟩)
  intro s past r o i s₁ m hs h _ _ hl
  have hw := hs.reach.wf
  have hne : ∀ q, ∀ j ∈ s.sent q, j ≠ i := by
    rintro q j hj rfl
    obtain ⟨m', hj'⟩ := hw.sent q j hj
    simp [hl] at hj'
  refine ⟨fun j k hk => issue_log_isSome hl ?_, fun q => ?_, fun j q m' hj => ?_⟩
  · by_cases hj : j = i
    · subst hj
      rw [Function.update_self] at hk
      obtain ⟨o', m', hk'⟩ := hw.log r k hk
      simp [hk']
    · rw [Function.update_of_ne hj] at hk
      exact h.log j k hk
  · have hq : (s.sent q).Pairwise fun a b => a ∈ Function.update past i (s.recv r) b :=
      (h.sent q).imp_of_mem fun {a b} _ hb hab => by
        rwa [Function.update_of_ne (hne q b hb)]
    by_cases hqr : q = r
    · subst hqr
      rw [issue_sent_self]
      refine List.pairwise_append.mpr ⟨hq, List.pairwise_singleton _ _, fun a ha b hb => ?_⟩
      -- What `q` sent before it has received itself.
      obtain rfl := List.mem_singleton.mp hb
      obtain ⟨m', hl'⟩ := hw.sent q a ha
      rw [Function.update_self]
      exact hw.own a q m' hl'
    · rw [issue_sent_ne hqr]
      exact hq
  · rcases issue_log_cases hj with ⟨rfl, hx⟩ | ⟨-, hj'⟩
    · cases hx
      simp
    · have := h.mem_sent j q m' hj'
      by_cases hqr : q = r
      · subst hqr
        simp [this]
      · rwa [issue_sent_ne hqr]

/-- A new broadcast does not change what happened before the old ones. -/
theorem Before.issue {i j k : ℕ} {r : R} {s₁ : S} {m : M} (hl : s.log k = none)
    (h : Before s past i j) :
    Before (P.issue s r k s₁ m) (Function.update past k (s.recv r)) i j := by
  refine Relation.TransGen.mono (fun a b hab => ?_) i j h
  obtain ⟨hmem, ha, hb⟩ := hab
  have hbk : b ≠ k := by
    rintro rfl
    simp [hl] at hb
  exact ⟨by rwa [Function.update_of_ne hbk], issue_log_isSome hl ha, issue_log_isSome hl hb⟩

/-- What a replica has received happened before its next broadcast. -/
theorem before_issue {i k : ℕ} {r : R} {s₁ : S} {m : M} (hw : Wf s) (hl : s.log k = none)
    (hi : i ∈ s.recv r) :
    Before (P.issue s r k s₁ m) (Function.update past k (s.recv r)) i k := by
  obtain ⟨o, m', hl'⟩ := hw.log r i hi
  exact .single ⟨by rwa [Function.update_self], by simp [issue_log_of_some hl hl'], by simp⟩

/-! ## Concrete runs -/

/-- The record of the events `es`, from the state `s` with the record `past`. -/
def pastRun (P : Obj R S O M) : List (Ev R O) → Sys R S M → (ℕ → Finset ℕ) → ℕ → Finset ℕ
  | [], _, past => past
  | e :: es, s, past =>
    match P.step s e with
    | some s' => pastRun P es s' (P.addPast s past e)
    | none => past

/-- The record of the events `es`, from the start. -/
def pastOf (P : Obj R S O M) (es : List (Ev R O)) : ℕ → Finset ℕ :=
  pastRun P es P.start fun _ => ∅

theorem Hist.of_run {g : Sys R S M → Ev R O → Bool} (hg : ∀ s e, g s e = true → G s e)
    (es : List (Ev R O)) (hs : P.Hist G s past) (h : runOk P g es s = true) :
    ∃ s', run P es s = some s' ∧ P.Hist G s' (pastRun P es s past) := by
  induction es generalizing s past with
  | nil => exact ⟨s, rfl, hs⟩
  | cons e es ih =>
    simp only [runOk, Bool.and_eq_true] at h
    obtain ⟨he, h⟩ := h
    cases hst : P.step s e with
    | none => simp [hst] at h
    | some s' =>
      obtain ⟨s'', hr, hs''⟩ := ih (.step e hs (hg s e he) hst) (by simpa [hst] using h)
      exact ⟨s'', by simp [run, hst, hr], by simpa [pastRun, hst] using hs''⟩

/-- The state of a concrete run whose events satisfy the guard, with its record. -/
theorem hist_runOf {g : Sys R S M → Ev R O → Bool} (hg : ∀ s e, g s e = true → G s e)
    (es : List (Ev R O)) (h : runOk P g es P.start = true) :
    P.Hist G (P.runOf es) (P.pastOf es) := by
  obtain ⟨s', hr, hs'⟩ := Hist.of_run hg es .start h
  simpa [runOf, pastOf, hr] using hs'

end Obj

end Broadcast
