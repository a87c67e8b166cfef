import CrdtRedis.Broadcast.Sys

/-!
# Designs with sets of operations to apply

A design in the style of PlusCal: the processes share a variable `ops` with, for each process, the
set of operations that it has still to apply, each with its number, and a counter of the operations
of the run, which a constant bounds. A process runs an operation, which its prepare phase may turn
down, applies it and adds it to the sets of the others; or it takes an operation of its own set and
applies it (`Design.Step`).

A replicated object refines a design (`Refines`) if related states are taken to related states by
both phases, and the prepare phase makes the message of the design's operation. Then every run of
the object is one of the design (`Refines.run`): what is in `ops` are the broadcasts that were not
received.

A design may have only the effect phases in common with the object. Then its processes follow a run
of the object: they apply the messages that the replicas apply (`Follows`).
-/

namespace Broadcast

/-- What a process does: processes `R` with variables `L`, requests `C`, operations `M`. -/
structure Design (R L C M : Type) where
  init : R → L
  /-- `none`: the request is turned down. -/
  prepare : R → L → C → Option M
  /-- `none`: an assertion fails. -/
  effect : M → L → Option L

namespace Design

variable {R L C M : Type} [DecidableEq R]

/-- The state of all processes. -/
structure St (R L M : Type) where
  ops : R → Set (ℕ × M)
  opcount : ℕ
  loc : R → L

/-- `ops` after process `self` has sent operation `x`. -/
def broadcast (ops : R → Set (ℕ × M)) (self : R) (x : ℕ × M) : R → Set (ℕ × M) :=
  fun j => if j = self then ops j else ops j ∪ {x}

variable (D : Design R L C M) (maxOps : ℕ)

def start : St R L M := ⟨fun _ => ∅, 0, D.init⟩

/-- One round of the loop of process `self`. -/
inductive Step : St R L M → St R L M → Prop
  | issue {d : St R L M} {self : R} {c : C} {m : M} {l : L} (hlt : d.opcount < maxOps)
    (hp : D.prepare self (d.loc self) c = some m) (he : D.effect m (d.loc self) = some l) :
    Step d ⟨broadcast d.ops self (d.opcount + 1, m), d.opcount + 1, Function.update d.loc self l⟩
  | skip {d : St R L M} {self : R} {c : C} (hlt : d.opcount < maxOps)
    (hp : D.prepare self (d.loc self) c = none) : Step d { d with opcount := d.opcount + 1 }
  | receive {d : St R L M} {self : R} {x : ℕ × M} {l : L} (hx : x ∈ d.ops self)
    (he : D.effect x.2 (d.loc self) = some l) :
    Step d { d with
      ops := Function.update d.ops self (d.ops self \ {x})
      loc := Function.update d.loc self l }

inductive Reach : St R L M → Prop
  | start : Reach D.start
  | step {d d' : St R L M} : Reach d → D.Step maxOps d d' → Reach d'

variable {D maxOps}

theorem Step.mono {k : ℕ} (hk : maxOps ≤ k) {d d' : St R L M} (h : D.Step maxOps d d') :
    D.Step k d d' := by
  cases h with
  | issue hlt hp he => exact .issue (hlt.trans_le hk) hp he
  | skip hlt hp => exact .skip (hlt.trans_le hk) hp
  | receive hx he => exact .receive hx he

/-- A run within a bound is one within a greater bound. -/
theorem Reach.mono {k : ℕ} (hk : maxOps ≤ k) {d : St R L M} (h : D.Reach maxOps d) :
    D.Reach k d := by
  induction h with
  | start => exact .start
  | step _ h ih => exact .step ih (h.mono hk)

end Design

/-! ## Refinement -/

variable {R S O M L C N : Type} [DecidableEq R]

/-- Related states, with the messages and commands of the object read as those of the design. -/
structure Refines (P : Obj R S O M) (D : Design R L C N) (rel : R → S → L → Prop) (msg : M → N)
    (cmd : O → Option C) : Prop where
  init : ∀ r, rel r (P.init r) (D.init r)
  /-- A prepare phase keeps the relation, and makes the message that the design makes. -/
  prepare : ∀ {r s l}, rel r s l → ∀ {o s₁ res}, P.prepare r s o = (s₁, res) →
    rel r s₁ l ∧ res.map msg = (cmd o).bind (D.prepare r l)
  effect : ∀ {r s l}, rel r s l → ∀ m, ∃ l', D.effect (msg m) l = some l' ∧
    rel r (P.effect r s m) l'

/-- `num` numbers the broadcasts: each has its own number, at most `k`. -/
structure Numbers (s : Sys R S M) (num : ℕ → ℕ) (k : ℕ) : Prop where
  inj : ∀ i j, (s.log i).isSome → (s.log j).isSome → num i = num j → i = j
  le : ∀ i, (s.log i).isSome → num i ≤ k

/-- The broadcasts that replica `r` has still to receive, as operations of the design. -/
def Sys.pending (s : Sys R S M) (msg : M → N) (num : ℕ → ℕ) (r : R) : Set (ℕ × N) :=
  {x | ∃ i o m, s.log i = some (o, m) ∧ i ∉ s.recv r ∧ x = (num i, msg m)}

/-- Related systems: related states at each process, and `ops` has what was not received. -/
structure SysRel (rel : R → S → L → Prop) (msg : M → N) (s : Sys R S M) (d : Design.St R L N) :
    Prop where
  loc : ∀ r, rel r (s.st r) (d.loc r)
  ops : ∃ num, Numbers s num d.opcount ∧ ∀ r, d.ops r = s.pending msg num r

section Run

variable {P : Obj R S O M} {D : Design R L C N} {rel : R → S → L → Prop} {msg : M → N}
  {cmd : O → Option C} {G : Sys R S M → Ev R O → Prop} {s : Sys R S M} {d : Design.St R L N}
  {r : R} {i k : ℕ} {s₁ : S} {m : M} {num : ℕ → ℕ}

/-- Both sides change the state of one process. -/
theorem rel_update {f : R → S} {g : R → L} (h : ∀ q, rel q (f q) (g q)) {x : S} {l : L}
    (hr : rel r x l) (q : R) : rel q (Function.update f r x q) (Function.update g r l q) := by
  by_cases hq : q = r
  · subst hq
    simpa using hr
  · simpa [hq] using h q

omit [DecidableEq R] in
theorem SysRel.start (h : Refines P D rel msg cmd) : SysRel rel msg P.start D.start := by
  have hlog : ∀ i, (P.start.log i).isSome → False := fun i hi => by cases hi
  refine ⟨h.init, id, ⟨fun i _ hi => (hlog i hi).elim, fun i hi => (hlog i hi).elim⟩, fun r => ?_⟩
  refine (Set.eq_empty_of_forall_notMem ?_).symm
  rintro x ⟨i, o, m, hl, -⟩
  cases hl

/-- A command that is rejected. -/
theorem SysRel.reject (h : SysRel rel msg s d) (hr : rel r s₁ (d.loc r)) (hk : d.opcount ≤ k) :
    SysRel rel msg (Obj.reject s r s₁) { d with opcount := k } := by
  obtain ⟨num, hn, hops⟩ := h.ops
  refine ⟨fun q => ?_, num, ⟨hn.inj, fun i hi => (hn.le i hi).trans hk⟩, hops⟩
  simpa [Obj.reject] using rel_update h.loc hr q

/-- The new broadcast gets the next number. -/
theorem Numbers.issue (h : Numbers s num k) :
    Numbers (P.issue s r i s₁ m) (Function.update num i (k + 1)) (k + 1) := by
  have hle : ∀ j, ((P.issue s r i s₁ m).log j).isSome → j ≠ i →
      Function.update num i (k + 1) j = num j ∧ (s.log j).isSome := by
    intro j hj hji
    rw [Obj.issue_log_ne hji] at hj
    exact ⟨Function.update_of_ne hji _ _, hj⟩
  constructor
  · intro j j' hj hj' heq
    by_cases hji : j = i <;> by_cases hji' : j' = i
    · rw [hji, hji']
    · obtain ⟨hn, hs⟩ := hle j' hj' hji'
      have := h.le j' hs
      rw [hji, Function.update_self, hn] at heq
      omega
    · obtain ⟨hn, hs⟩ := hle j hj hji
      have := h.le j hs
      rw [hji', Function.update_self, hn] at heq
      omega
    · obtain ⟨hn, hs⟩ := hle j hj hji
      obtain ⟨hn', hs'⟩ := hle j' hj' hji'
      exact h.inj j j' hs hs' (hn ▸ hn' ▸ heq)
  · intro j hj
    by_cases hji : j = i
    · rw [hji, Function.update_self]
    · obtain ⟨hn, hs⟩ := hle j hj hji
      rw [hn]
      exact (h.le j hs).trans (Nat.le_succ k)

/-- What is pending after a new broadcast. -/
theorem pending_issue (hw : Obj.Wf s) (hl : s.log i = none) (q : R) :
    (P.issue s r i s₁ m).pending msg (Function.update num i k) q =
      Design.broadcast (s.pending msg num) r (k, msg m) q := by
  have hne : ∀ {j x}, s.log j = some x → j ≠ i := fun hj hji => by
    rw [hji, hl] at hj
    cases hj
  have hold : ∀ j, j ≠ i → (j ∈ (P.issue s r i s₁ m).recv q ↔ j ∈ s.recv q) := by
    intro j hji
    by_cases hq : q = r
    · subst hq
      simp [hji]
    · rw [Obj.issue_recv_ne hq]
  ext x
  constructor
  · rintro ⟨j, o, m', hj, hrecv, rfl⟩
    rcases Obj.issue_log_cases hj with ⟨rfl, heq⟩ | ⟨hji, hj'⟩
    · cases heq
      have hq : q ≠ r := fun hq => hrecv (by rw [hq]; simp)
      rw [Design.broadcast, if_neg hq, Function.update_self]
      exact .inr rfl
    · have hx : (num j, msg m') ∈ s.pending msg num q :=
        ⟨j, o, m', hj', fun h => hrecv ((hold j hji).mpr h), rfl⟩
      rw [Function.update_of_ne hji, Design.broadcast]
      split
      · exact hx
      · exact .inl hx
  · intro hx
    have hcase : x ∈ s.pending msg num q ∨ (q ≠ r ∧ x = (k, msg m)) := by
      rw [Design.broadcast] at hx
      split at hx
      · exact .inl hx
      · rename_i hq
        exact hx.imp_right fun hx => ⟨hq, hx⟩
    rcases hcase with ⟨j, o, m', hj, hrecv, rfl⟩ | ⟨hq, rfl⟩
    · exact ⟨j, o, m', Obj.issue_log_of_some hl hj, fun h => hrecv ((hold j (hne hj)).mp h), by
        rw [Function.update_of_ne (hne hj)]⟩
    · refine ⟨i, r, m, Obj.issue_log_self, fun hi => ?_, by rw [Function.update_self]⟩
      rw [Obj.issue_recv_ne hq] at hi
      obtain ⟨o, m', hi⟩ := hw.log q i hi
      exact hne hi rfl

/-- What is pending after a delivery. -/
theorem pending_deliver {o : R} (hn : Numbers s num k) (hl : s.log i = some (o, m)) (q : R) :
    (P.deliver s r i m).pending msg num q =
      Function.update (s.pending msg num) r (s.pending msg num r \ {(num i, msg m)}) q := by
  by_cases hq : q = r
  · subst hq
    rw [Function.update_self]
    ext x
    constructor
    · rintro ⟨j, o', m', hj, hrecv, rfl⟩
      rw [Obj.deliver_recv_self, Finset.mem_insert, not_or] at hrecv
      refine ⟨⟨j, o', m', hj, hrecv.2, rfl⟩, fun heq => hrecv.1 ?_⟩
      exact hn.inj j i (by rw [← Obj.deliver_log (P := P), hj]; rfl) (by rw [hl]; rfl)
        (Prod.mk.inj heq).1
    · rintro ⟨⟨j, o', m', hj, hrecv, rfl⟩, hne⟩
      refine ⟨j, o', m', hj, fun hin => ?_, rfl⟩
      rw [Obj.deliver_recv_self, Finset.mem_insert] at hin
      rcases hin with rfl | hin
      · rw [hl] at hj
        cases hj
        exact hne rfl
      · exact hrecv hin
  · rw [Function.update_of_ne hq]
    simp only [Sys.pending, Obj.deliver_recv_ne hq, Obj.deliver_log]

/-- **Every run of the object is a run of the design**, with a bound for the operations. -/
theorem Refines.run (h : Refines P D rel msg cmd) (hs : P.Reach G s) :
    ∃ maxOps d, D.Reach maxOps d ∧ SysRel rel msg s d := by
  refine hs.rule (I := fun s => ∃ maxOps d, D.Reach maxOps d ∧ SysRel rel msg s d)
    ⟨0, D.start, .start, .start h⟩ ?_ ?_ ?_
  · rintro s r o i s₁ - ⟨k, d, hd, hsd⟩ - hp
    obtain ⟨hr, hres⟩ := h.prepare (hsd.loc r) hp
    cases hc : cmd o with
    | none => exact ⟨k, d, hd, hsd.reject hr le_rfl⟩
    | some c =>
      -- The design turns the request down too, and counts it.
      rw [hc, Option.bind_some, Option.map_none] at hres
      exact ⟨max k (d.opcount + 1), _, .step (hd.mono (le_max_left _ _))
        (.skip (lt_max_of_lt_right (Nat.lt_succ_self _)) hres.symm),
        hsd.reject hr (Nat.le_succ _)⟩
  · rintro s r o i s₁ m hs ⟨k, d, hd, hsd⟩ - hp hl
    obtain ⟨hr, hres⟩ := h.prepare (hsd.loc r) hp
    obtain ⟨l, he, hrel⟩ := h.effect hr m
    obtain ⟨num, hn, hops⟩ := hsd.ops
    rw [Option.map_some] at hres
    obtain ⟨c, -, hprep⟩ := Option.bind_eq_some_iff.mp hres.symm
    refine ⟨max k (d.opcount + 1), _, .step (hd.mono (le_max_left _ _))
      (.issue (lt_max_of_lt_right (Nat.lt_succ_self _)) hprep he),
      rel_update hsd.loc hrel, _, hn.issue, fun q => ?_⟩
    rw [pending_issue hs.wf hl, ← funext hops]
  · rintro s r i o m - ⟨k, d, hd, hsd⟩ - hl hi
    obtain ⟨num, hn, hops⟩ := hsd.ops
    obtain ⟨l, he, hrel⟩ := h.effect (hsd.loc r) m
    have hx : (num i, msg m) ∈ d.ops r := by
      rw [hops]
      exact ⟨i, o, m, hl, hi, rfl⟩
    refine ⟨k, _, .step hd (.receive hx he), rel_update hsd.loc hrel, num, ⟨hn.inj, hn.le⟩,
      fun q => ?_⟩
    rw [pending_deliver hn hl, ← funext hops]

end Run

/-! ## Following a run -/

section Follow

variable (P : Obj R S O M) (G : Sys R S M → Ev R O → Prop) (f : M → L → L)

/-- One event of the object, and variables of processes that apply its messages by `f`. -/
inductive Follow : Sys R S M → (R → L) → Sys R S M → (R → L) → Prop
  | reject {s : Sys R S M} {d : R → L} {r : R} {o : O} {i : ℕ} {s₁ : S} (hg : G s (.op r o i))
    (hp : P.prepare r (s.st r) o = (s₁, none)) : Follow s d (Obj.reject s r s₁) d
  | issue {s : Sys R S M} {d : R → L} {r : R} {o : O} {i : ℕ} {s₁ : S} {m : M}
    (hg : G s (.op r o i)) (hp : P.prepare r (s.st r) o = (s₁, some m)) (hl : s.log i = none) :
    Follow s d (P.issue s r i s₁ m) (Function.update d r (f m (d r)))
  | deliver {s : Sys R S M} {d : R → L} {r o : R} {i : ℕ} {m : M} (hg : G s (.recv r i))
    (hl : s.log i = some (o, m)) (hi : i ∉ s.recv r) :
    Follow s d (P.deliver s r i m) (Function.update d r (f m (d r)))

/-- The variables of processes that start with `init` and follow a run of the object. -/
inductive Follows (init : R → L) : Sys R S M → (R → L) → Prop
  | start : Follows init P.start init
  | step {s s' : Sys R S M} {d d' : R → L} : Follows init s d → Follow P G f s d s' d' →
    Follows init s' d'

variable {P G f}

theorem Follow.step {s s' : Sys R S M} {d d' : R → L} (h : Follow P G f s d s' d') :
    ∃ e, G s e ∧ P.step s e = some s' := by
  cases h with
  | reject hg hp => exact ⟨_, hg, by simp [Obj.step, hp]⟩
  | issue hg hp hl => exact ⟨_, hg, by simp [Obj.step, hp, hl]⟩
  | deliver hg hl hi => exact ⟨_, hg, by simp [Obj.step, hl, hi]⟩

/-- Every run can be followed, and what each event keeps holds along it. -/
theorem Follows.run {s : Sys R S M} {I : Sys R S M → (R → L) → Prop} {init : R → L}
    (hs : P.Reach G s) (start : I P.start init)
    (step : ∀ s d s' d', P.Reach G s → Follow P G f s d s' d' → I s d → I s' d') :
    ∃ d, Follows P G f init s d ∧ I s d := by
  have next : ∀ {s s' : Sys R S M} {d d' : R → L}, P.Reach G s → Follow P G f s d s' d' →
      Follows P G f init s d ∧ I s d → ∃ d, Follows P G f init s' d ∧ I s' d :=
    fun hs hf h => ⟨_, h.1.step hf, step _ _ _ _ hs hf h.2⟩
  refine hs.rule (I := fun s => ∃ d, Follows P G f init s d ∧ I s d) ⟨init, .start, start⟩ ?_ ?_ ?_
  · rintro s r o i s₁ hs ⟨d, h⟩ hg hp
    exact next hs (.reject hg hp) h
  · rintro s r o i s₁ m hs ⟨d, h⟩ hg hp hl
    exact next hs (.issue hg hp hl) h
  · rintro s r i o m hs ⟨d, h⟩ hg hl hi
    exact next hs (.deliver hg hl hi) h

end Follow

end Broadcast
