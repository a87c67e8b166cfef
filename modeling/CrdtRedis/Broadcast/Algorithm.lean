import CrdtRedis.Broadcast.Causal
import CrdtRedis.Broadcast.Design

/-!
# Algorithms whose operations may have to wait

A design in the style of PlusCal, as in `Broadcast.Design`, where the prepare part of an operation
may change variables of its process and an operation of `ops` is taken only when the process is
ready for it (`Algorithm`).

* `Implements.run`: every run of a replicated object that implements the algorithm is one of the
  algorithm. The object may receive an operation that is not ready and keep it in a buffer; the
  algorithm then leaves it in `ops`, and takes the operations that the object takes out of the
  buffer one by one (`Algorithm.Drains`).
* `Covers.run`: every run of the algorithm is one of an object that covers it, where the replicas
  receive an operation when the processes take it. What holds of every run of the object then holds
  of every run of the algorithm.
* `Algorithm.Reach.sys`: an algorithm as a replicated object.
* `Refines.covers`: an object that refines a design of `Broadcast.Design` covers it.
-/

namespace Broadcast

/-- What a process does: processes `R` with variables `L`, requests `C`, operations `M`. -/
structure Algorithm (R L C M : Type) where
  init : R → L
  /-- The variables after the prepare part, and the operation; `none`: it is turned down. -/
  prepare : R → L → C → Option (L × M)
  ready : L → M → Prop
  effect : M → L → L

namespace Algorithm

variable {R L C M : Type} [DecidableEq R] (A : Algorithm R L C M) (maxOps : ℕ)

def start : Design.St R L M := ⟨fun _ => ∅, 0, A.init⟩

/-- One round of the loop of process `self`. -/
inductive Step : Design.St R L M → Design.St R L M → Prop
  | issue {d : Design.St R L M} {self : R} {c : C} {l : L} {m : M} (hlt : d.opcount < maxOps)
    (hp : A.prepare self (d.loc self) c = some (l, m)) :
    Step d ⟨Design.broadcast d.ops self (d.opcount + 1, m), d.opcount + 1,
      Function.update d.loc self (A.effect m l)⟩
  | skip {d : Design.St R L M} {self : R} {c : C} (hlt : d.opcount < maxOps)
    (hp : A.prepare self (d.loc self) c = none) : Step d { d with opcount := d.opcount + 1 }
  | receive {d : Design.St R L M} {self : R} {x : ℕ × M} (hx : x ∈ d.ops self)
    (hr : A.ready (d.loc self) x.2) :
    Step d { d with
      ops := Function.update d.ops self (d.ops self \ {x})
      loc := Function.update d.loc self (A.effect x.2 (d.loc self)) }

inductive Reach : Design.St R L M → Prop
  | start : Reach A.start
  | step {d d' : Design.St R L M} : Reach d → A.Step maxOps d d' → Reach d'

variable {A maxOps}

/-- A run within a bound is one within a greater bound. -/
theorem Reach.mono {k : ℕ} (hk : maxOps ≤ k) {d : Design.St R L M} (h : A.Reach maxOps d) :
    A.Reach k d := by
  induction h with
  | start => exact .start
  | step _ h ih =>
    refine .step ih ?_
    cases h with
    | issue hlt hp => exact .issue (hlt.trans_le hk) hp
    | skip hlt hp => exact .skip (hlt.trans_le hk) hp
    | receive hx hr => exact .receive hx hr

/-- A process takes operations out of `buf` as it gets ready for them. -/
inductive Drains (A : Algorithm R L C M) : L → List M → L → List M → Prop
  | done (l : L) (buf : List M) : Drains A l buf l buf
  | next {l l₂ : L} {b₁ b₂ buf₂ : List M} {m : M} (hr : A.ready l m)
    (h : Drains A (A.effect m l) (b₁ ++ b₂) l₂ buf₂) : Drains A l (b₁ ++ m :: b₂) l₂ buf₂

omit [DecidableEq R] in
/-- Nothing is in the buffer. -/
theorem Drains.nil {l l₂ : L} {buf₂ : List M} (h : A.Drains l [] l₂ buf₂) : l₂ = l ∧ buf₂ = [] := by
  generalize hb : ([] : List M) = buf at h
  cases h with
  | done => exact ⟨rfl, rfl⟩
  | next => simp at hb

/-- What holds after the loop over a buffer and cannot be gained holds before it. -/
theorem drain_back {X N : Type} {ready : X → N → Bool} {exec : X → N → X} {Q : X → Prop}
    (hQ : ∀ x m, Q (exec x m) → Q x) (k : ℕ) (x : X) (buf : List N)
    (h : Q (drain ready exec k x buf).1) : Q x := by
  induction k generalizing x buf with
  | zero => exact h
  | succ k ih =>
    cases hf : buf.find? (ready x) with
    | none => rwa [drain_none hf] at h
    | some m =>
      rw [drain_some hf] at h
      exact hQ x m (ih _ _ h)

omit [DecidableEq R] in
/-- The loop over the buffer of an object. Its steps are those of the algorithm in the states that
it reaches with `I` and that end in one with `Q`. -/
theorem drains_drain {X N : Type} {ready : X → N → Bool} {exec : X → N → X} {f : X → L}
    {g : N → M} {I Q : X → Prop} (hI : ∀ x m, I x → I (exec x m))
    (hQ : ∀ x m, Q (exec x m) → Q x)
    (hready : ∀ x m, ready x m = true → A.ready (f x) (g m))
    (hexec : ∀ x m, I x → Q (exec x m) → f (exec x m) = A.effect (g m) (f x))
    (k : ℕ) (x : X) (buf : List N) (hx : I x) (hq : Q (drain ready exec k x buf).1) :
    A.Drains (f x) (buf.map g) (f (drain ready exec k x buf).1)
      ((drain ready exec k x buf).2.map g) := by
  induction k generalizing x buf with
  | zero => exact .done _ _
  | succ k ih =>
    cases hf : buf.find? (ready x) with
    | none =>
      rw [drain_none hf]
      exact .done _ _
    | some m =>
      rw [drain_some hf] at hq ⊢
      obtain ⟨hm, b₁, b₂, rfl, hb₁⟩ := List.find?_eq_some_iff_append.mp hf
      have he : (b₁ ++ m :: b₂).eraseP (ready x) = b₁ ++ b₂ := by
        rw [List.eraseP_append_right _ fun b hb => by simpa using hb₁ b hb,
          List.eraseP_cons_of_pos hm]
      have ih := ih (exec x m) (b₁ ++ b₂) (hI x m hx) (he ▸ hq)
      rw [hexec x m hx (drain_back hQ k _ _ hq), List.map_append] at ih
      rw [he, List.map_append, List.map_cons]
      exact .next (hready x m hm) ih

end Algorithm

/-! ## Objects that implement an algorithm -/

variable {R S O M L C N : Type} [DecidableEq R]

/-- Related states, with the messages and commands of the object read as operations and requests.
The list of a related state is the buffer of the object. -/
structure Implements (P : Obj R S O M) (A : Algorithm R L C N) (rel : R → S → L → List N → Prop)
    (msg : M → N) (cmd : O → Option C) (G : Sys R S M → Ev R O → Prop) : Prop where
  init : ∀ r, rel r (P.init r) (A.init r) []
  /-- A prepare phase makes the operation that the algorithm makes. -/
  prepare : ∀ {s r o i s₁ res l buf}, P.Reach G s → G s (.op r o i) → rel r (s.st r) l buf →
    P.prepare r (s.st r) o = (s₁, res) →
    res.map msg = ((cmd o).bind (A.prepare r l)).map Prod.snd ∧ (res = none → rel r s₁ l buf)
  issue : ∀ {s r o i s₁ m l buf c l₁}, P.Reach G s → G s (.op r o i) → s.log i = none →
    rel r (s.st r) l buf → P.prepare r (s.st r) o = (s₁, some m) → cmd o = some c →
    A.prepare r l c = some (l₁, msg m) →
    ∃ l₂ buf₂, A.Drains (A.effect (msg m) l₁) buf l₂ buf₂ ∧ rel r (P.effect r s₁ m) l₂ buf₂
  deliver : ∀ {s r i o m l buf}, P.Reach G s → G s (.recv r i) → s.log i = some (o, m) →
    i ∉ s.recv r → rel r (s.st r) l buf →
    ∃ l₂ buf₂, A.Drains l (buf ++ [msg m]) l₂ buf₂ ∧ rel r (P.effect r (s.st r) m) l₂ buf₂

/-- The broadcasts that replica `r` has still to apply, those in its buffer among them. -/
def Sys.waiting (s : Sys R S M) (msg : M → N) (num : ℕ → ℕ) (r : R) (buf : List ℕ) :
    Set (ℕ × N) :=
  {x | ∃ i o m, s.log i = some (o, m) ∧ (i ∉ s.recv r ∨ i ∈ buf) ∧ x = (num i, msg m)}

/-- The messages of a list of broadcasts. -/
def Sys.msgs (s : Sys R S M) (msg : M → N) (buf : List ℕ) : List N :=
  buf.filterMap fun i => (s.msg i).map msg

/-- Process and replica `r` in related states: `buf` are the broadcasts in the buffer. -/
structure ProcRel (rel : R → S → L → List N → Prop) (msg : M → N) (num : ℕ → ℕ) (s : Sys R S M)
    (d : Design.St R L N) (r : R) (buf : List ℕ) : Prop where
  nodup : buf.Nodup
  recv : ∀ i ∈ buf, i ∈ s.recv r
  ops : d.ops r = s.waiting msg num r buf
  loc : rel r (s.st r) (d.loc r) (s.msgs msg buf)

/-- Related systems. -/
def AlgRel (rel : R → S → L → List N → Prop) (msg : M → N) (s : Sys R S M)
    (d : Design.St R L N) : Prop :=
  ∃ (num : ℕ → ℕ) (buf : R → List ℕ), Numbers s num d.opcount ∧
    ∀ r, ProcRel rel msg num s d r (buf r)

section Waiting

variable {P : Obj R S O M} {msg : M → N} {num : ℕ → ℕ} {s : Sys R S M} {r q o : R} {i k : ℕ}
  {m : M} {s₁ : S} {buf b₁ b₂ : List ℕ}

omit [DecidableEq R] in
/-- Nothing is in the buffer. -/
theorem waiting_nil : s.waiting msg num r [] = s.pending msg num r := by
  simp [Sys.waiting, Sys.pending]

omit [DecidableEq R] in
/-- A broadcast is taken out of the buffer. -/
theorem waiting_erase (hn : Numbers s num k) (hnd : (b₁ ++ i :: b₂).Nodup) (hi : i ∈ s.recv r)
    (hl : s.log i = some (o, m)) :
    s.waiting msg num r (b₁ ++ b₂) = s.waiting msg num r (b₁ ++ i :: b₂) \ {(num i, msg m)} := by
  have hnot : i ∉ b₁ ++ b₂ := (List.nodup_middle.mp hnd).notMem
  ext x
  constructor
  · rintro ⟨j, o', m', hj, hw, rfl⟩
    have hji : j ≠ i := by
      rintro rfl
      exact hw.elim (fun h => h hi) hnot
    refine ⟨⟨j, o', m', hj, hw.imp_right fun h => ?_, rfl⟩, fun heq => hji ?_⟩
    · exact List.perm_middle.mem_iff.mpr (List.mem_cons_of_mem i h)
    · exact hn.inj j i (by simp [hj]) (by simp [hl]) (Prod.mk.inj heq).1
  · rintro ⟨⟨j, o', m', hj, hw, rfl⟩, hne⟩
    refine ⟨j, o', m', hj, hw.imp_right fun h => ?_, rfl⟩
    rcases List.mem_cons.mp (List.perm_middle.mem_iff.mp h) with rfl | h
    · rw [hl] at hj
      cases hj
      exact absurd rfl hne
    · exact h

/-- A broadcast that is received joins the buffer. -/
theorem waiting_deliver (hi : i ∉ s.recv r) :
    (P.deliver s r i m).waiting msg num r (buf ++ [i]) = s.waiting msg num r buf := by
  ext x
  simp only [Sys.waiting, Obj.deliver_log, Obj.deliver_recv_self, Finset.mem_insert, not_or,
    List.mem_append, List.mem_singleton, Set.mem_ofPred_eq]
  refine exists_congr fun j => exists_congr fun o' => exists_congr fun m' =>
    and_congr_right fun _ => and_congr_left fun _ => ?_
  by_cases hj : j = i
  · simp [hj, hi]
  · simp [hj]

theorem waiting_deliver_ne (hq : q ≠ r) :
    (P.deliver s r i m).waiting msg num q buf = s.waiting msg num q buf := by
  simp only [Sys.waiting, Obj.deliver_log, Obj.deliver_recv_ne hq]

/-- A new broadcast waits at the other replicas. -/
theorem waiting_issue (hw : Obj.Wf s) (hl : s.log i = none) (hbuf : ∀ j ∈ buf, j ∈ s.recv q) :
    (P.issue s r i s₁ m).waiting msg (Function.update num i k) q buf =
      Design.broadcast (fun q => s.waiting msg num q buf) r (k, msg m) q := by
  have hne : ∀ {j x}, s.log j = some x → j ≠ i := fun hj hji => by
    rw [hji, hl] at hj
    cases hj
  have hi : i ∉ buf := fun hi => hw.notMem_recv hl q (hbuf i hi)
  have hold : ∀ j, j ≠ i → (j ∈ (P.issue s r i s₁ m).recv q ↔ j ∈ s.recv q) := fun j hji => by
    by_cases hq : q = r
    · subst hq
      simp [hji]
    · rw [Obj.issue_recv_ne hq]
  have hcase : ∀ x, x ∈ Design.broadcast (fun q => s.waiting msg num q buf) r (k, msg m) q ↔
      x ∈ s.waiting msg num q buf ∨ (q ≠ r ∧ x = (k, msg m)) := fun x => by
    rw [Design.broadcast]
    split
    · rename_i hq
      simp [hq]
    · rename_i hq
      simp [hq, or_comm]
  ext x
  rw [hcase]
  constructor
  · rintro ⟨j, o', m', hj, hwait, rfl⟩
    rcases Obj.issue_log_cases hj with ⟨rfl, heq⟩ | ⟨hji, hj'⟩
    · cases heq
      refine .inr ⟨fun hq => hwait.elim (fun h => h ?_) hi, by rw [Function.update_self]⟩
      rw [hq]
      simp
    · rw [Function.update_of_ne hji]
      exact .inl ⟨j, o', m', hj', hwait.imp_left fun h h' => h ((hold j hji).mpr h'), rfl⟩
  · rintro (⟨j, o', m', hj, hwait, rfl⟩ | ⟨hq, rfl⟩)
    · refine ⟨j, o', m', Obj.issue_log_of_some hl hj, hwait.imp_left fun h h' => ?_, ?_⟩
      · exact h ((hold j (hne hj)).mp h')
      · rw [Function.update_of_ne (hne hj)]
    · refine ⟨i, r, m, Obj.issue_log_self, .inl fun h => ?_, by rw [Function.update_self]⟩
      rw [Obj.issue_recv_ne hq] at h
      exact hw.notMem_recv hl q h

end Waiting

/-! ## Runs of the object -/

section Run

variable {P : Obj R S O M} {A : Algorithm R L C N} {rel : R → S → L → List N → Prop}
  {msg : M → N} {cmd : O → Option C} {G : Sys R S M → Ev R O → Prop} {s : Sys R S M}
  {d : Design.St R L N} {r : R} {num : ℕ → ℕ} {k : ℕ}

/-- The algorithm takes the operations that the object takes out of its buffer. -/
theorem Algorithm.Drains.run {l l₂ : L} {b b₂ : List N} (h : A.Drains l b l₂ b₂)
    (hd : A.Reach k d) (hn : Numbers s num d.opcount) {buf : List ℕ} (hnd : buf.Nodup)
    (hrecv : ∀ i ∈ buf, i ∈ s.recv r) (hops : d.ops r = s.waiting msg num r buf)
    (hl : d.loc r = l) (hb : s.msgs msg buf = b) :
    ∃ ops buf₂, A.Reach k ⟨Function.update d.ops r ops, d.opcount,
        Function.update d.loc r l₂⟩ ∧ buf₂.Nodup ∧ (∀ i ∈ buf₂, i ∈ s.recv r) ∧
      ops = s.waiting msg num r buf₂ ∧ s.msgs msg buf₂ = b₂ := by
  induction h generalizing d buf with
  | done l b =>
    refine ⟨d.ops r, buf, ?_, hnd, hrecv, hops, hb⟩
    rw [← hl, Function.update_eq_self, Function.update_eq_self]
    exact hd
  | next hr h ih =>
    rename_i l l₂ b₁ b₂ buf₂ n
    -- The broadcast that stands in the buffer for the operation.
    obtain ⟨i₁, i₂, rfl, hi₁, hi₂⟩ := List.filterMap_eq_append_iff.mp hb
    obtain ⟨j, i, i₃, rfl, hj, hi, hi₃⟩ := List.filterMap_eq_cons_iff.mp hi₂
    obtain ⟨m, hm, rfl⟩ := Option.map_eq_some_iff.mp hi
    obtain ⟨⟨o, m'⟩, hlog, rfl⟩ := Option.map_eq_some_iff.mp hm
    rw [← List.append_assoc] at hnd hrecv hops
    have hir : i ∈ s.recv r := hrecv i (by simp)
    have hx : (num i, msg m') ∈ d.ops r := by
      rw [hops]
      exact ⟨i, o, m', hlog, .inr (by simp), rfl⟩
    have hmsgs : s.msgs msg (i₁ ++ j ++ i₃) = b₁ ++ b₂ := by
      rw [Sys.msgs, List.filterMap_append, List.filterMap_append, hi₁, hi₃,
        List.filterMap_eq_nil_iff.mpr hj, List.append_nil]
    have hops' : d.ops r \ {(num i, msg m')} = s.waiting msg num r (i₁ ++ j ++ i₃) := by
      rw [hops, waiting_erase hn hnd hir hlog]
    obtain ⟨ops, buf₃, hreach, h₃⟩ := ih (hd.step (.receive hx (hl ▸ hr))) hn
      (List.nodup_middle.mp hnd).of_cons
      (fun j hj => hrecv j (List.perm_middle.mem_iff.mpr (List.mem_cons_of_mem i hj)))
      ((Function.update_self ..).trans hops') ((Function.update_self ..).trans (by rw [hl])) hmsgs
    refine ⟨ops, buf₃, ?_, h₃⟩
    simpa only [Function.update_idem] using hreach

/-- What the algorithm takes leaves the systems related. -/
theorem Algorithm.Drains.algRel {l₂ : L} {b₂ : List N} {b : List ℕ} {buf : R → List ℕ}
    (h : A.Drains (d.loc r) (s.msgs msg b) l₂ b₂) (hd : A.Reach k d)
    (hn : Numbers s num d.opcount) (hnd : b.Nodup) (hrecv : ∀ i ∈ b, i ∈ s.recv r)
    (hops : d.ops r = s.waiting msg num r b) (hr : rel r (s.st r) l₂ b₂)
    (hq : ∀ q, q ≠ r → ProcRel rel msg num s d q (buf q)) :
    ∃ d', A.Reach k d' ∧ AlgRel rel msg s d' := by
  obtain ⟨ops, b₃, hreach, hnd₃, hrecv₃, rfl, rfl⟩ := h.run hd hn hnd hrecv hops rfl rfl
  refine ⟨_, hreach, num, Function.update buf r b₃, hn, fun q => ?_⟩
  by_cases hqr : q = r
  · subst hqr
    rw [Function.update_self]
    exact ⟨hnd₃, hrecv₃, Function.update_self .., by simpa using hr⟩
  · obtain ⟨h₁, h₂, h₃, h₄⟩ := hq q hqr
    rw [Function.update_of_ne hqr]
    exact ⟨h₁, h₂, by simpa [hqr] using h₃, by simpa [hqr] using h₄⟩

theorem msgs_issue {i : ℕ} {s₁ : S} {m : M} {buf : List ℕ} (hw : Obj.Wf s) (hl : s.log i = none)
    {q : R} (hbuf : ∀ j ∈ buf, j ∈ s.recv q) :
    (P.issue s r i s₁ m).msgs msg buf = s.msgs msg buf :=
  List.filterMap_congr fun j hj => by
    rw [Sys.msg, Sys.msg, hw.issue_log_recv hl (hbuf j hj)]

section Steps

variable {o : O} {i : ℕ} {s₁ : S} {m : M} (h : Implements P A rel msg cmd G) (hs : P.Reach G s)
  (hd : A.Reach k d) (hrel : AlgRel rel msg s d)

include h hs hd hrel

/-- A command that is rejected: the algorithm turns the request down and counts it, if there is
one. -/
theorem Implements.run_reject (hg : G s (.op r o i)) (hprep : P.prepare r (s.st r) o = (s₁, none)) :
    ∃ maxOps d', A.Reach maxOps d' ∧ AlgRel rel msg (Obj.reject s r s₁) d' := by
  obtain ⟨num, buf, hn, hp⟩ := hrel
  obtain ⟨hres, hloc⟩ := h.prepare hs hg (hp r).loc hprep
  have hproc : ∀ k' q, ProcRel rel msg num (Obj.reject s r s₁) { d with opcount := k' } q
      (buf q) := fun k' q => by
    refine ⟨(hp q).nodup, (hp q).recv, (hp q).ops, ?_⟩
    by_cases hq : q = r
    · subst hq
      rw [Obj.reject_st_self]
      exact hloc rfl
    · rw [Obj.reject_st_ne hq]
      exact (hp q).loc
  cases hc : cmd o with
  | none => exact ⟨k, d, hd, num, buf, ⟨hn.inj, hn.le⟩, hproc d.opcount⟩
  | some c =>
    rw [hc, Option.bind_some, Option.map_none] at hres
    exact ⟨max k (d.opcount + 1), _, .step (hd.mono (le_max_left _ _))
      (.skip (lt_max_of_lt_right (Nat.lt_succ_self _)) (Option.map_eq_none_iff.mp hres.symm)),
      num, buf, ⟨hn.inj, fun i hi => (hn.le i hi).trans (Nat.le_succ _)⟩, hproc _⟩

/-- A command that is accepted: the algorithm makes the operation, and then takes what the object
takes out of its buffer. -/
theorem Implements.run_issue (hg : G s (.op r o i))
    (hprep : P.prepare r (s.st r) o = (s₁, some m)) (hl : s.log i = none) :
    ∃ maxOps d', A.Reach maxOps d' ∧ AlgRel rel msg (P.issue s r i s₁ m) d' := by
  obtain ⟨num, buf, hn, hp⟩ := hrel
  obtain ⟨hres, -⟩ := h.prepare hs hg (hp r).loc hprep
  rw [Option.map_some] at hres
  obtain ⟨⟨l₁, n⟩, hbind, rfl⟩ := Option.map_eq_some_iff.mp hres.symm
  obtain ⟨c, hc, hA⟩ := Option.bind_eq_some_iff.mp hbind
  obtain ⟨l₂, b₂, hdr, hloc⟩ := h.issue hs hg hl (hp r).loc hprep hc hA
  have hw := hs.wf
  have hop : ∀ q, Design.broadcast d.ops r (d.opcount + 1, msg m) q =
      (P.issue s r i s₁ m).waiting msg (Function.update num i (d.opcount + 1)) q (buf q) :=
    fun q => by
      rw [waiting_issue hw hl (hp q).recv, Design.broadcast, Design.broadcast, (hp q).ops]
  refine ⟨max k (d.opcount + 1), ?_⟩
  refine Algorithm.Drains.algRel (d := ⟨Design.broadcast d.ops r (d.opcount + 1, msg m),
    d.opcount + 1, Function.update d.loc r (A.effect (msg m) l₁)⟩) (r := r)
    (by simpa [msgs_issue hw hl (hp r).recv] using hdr)
    (.step (hd.mono (le_max_left _ _)) (.issue (lt_max_of_lt_right (Nat.lt_succ_self _)) hA))
    hn.issue (hp r).nodup (fun j hj => ?_) (hop r) (by rw [Obj.issue_st_self]; exact hloc)
    fun q hq => ⟨(hp q).nodup, ?_, hop q, ?_⟩
  · rw [Obj.issue_recv_self]
    exact Finset.mem_insert_of_mem ((hp r).recv j hj)
  · rw [Obj.issue_recv_ne hq]
    exact (hp q).recv
  · rw [msgs_issue hw hl (hp q).recv, Obj.issue_st_ne hq]
    simpa [hq] using (hp q).loc

/-- A message that is received joins the buffer, and the algorithm takes what leaves it. -/
theorem Implements.run_deliver {q : R} (hg : G s (.recv r i)) (hl : s.log i = some (q, m))
    (hi : i ∉ s.recv r) : ∃ d', A.Reach k d' ∧ AlgRel rel msg (P.deliver s r i m) d' := by
  obtain ⟨num, buf, hn, hp⟩ := hrel
  obtain ⟨l₂, b₂, hdr, hloc⟩ := h.deliver hs hg hl hi (hp r).loc
  have hmsgs : (P.deliver s r i m).msgs msg (buf r ++ [i]) = s.msgs msg (buf r) ++ [msg m] := by
    rw [Sys.msgs, List.filterMap_append]
    simp [Sys.msgs, Sys.msg, hl]
  refine Algorithm.Drains.algRel (r := r) (by rw [hmsgs]; exact hdr) hd ⟨hn.inj, hn.le⟩
    ?_ (fun j hj => ?_) ((hp r).ops.trans (waiting_deliver hi).symm)
    (by rw [Obj.deliver_st_self]; exact hloc) fun q hq => ⟨(hp q).nodup, ?_, ?_, ?_⟩
  · exact (hp r).nodup.append (List.nodup_singleton i)
      (by simpa using fun h => hi ((hp r).recv i h))
  · rw [Obj.deliver_recv_self, Finset.mem_insert]
    rcases List.mem_append.mp hj with hj | hj
    · exact .inr ((hp r).recv j hj)
    · exact .inl (List.mem_singleton.mp hj)
  · rw [Obj.deliver_recv_ne hq]
    exact (hp q).recv
  · rw [waiting_deliver_ne hq]
    exact (hp q).ops
  · rw [Obj.deliver_st_ne hq]
    exact (hp q).loc

end Steps

/-- **Every run of the object is a run of the algorithm**, with a bound for the operations. -/
theorem Implements.run (h : Implements P A rel msg cmd G) (hs : P.Reach G s) :
    ∃ maxOps d, A.Reach maxOps d ∧ AlgRel rel msg s d := by
  refine hs.rule (I := fun s => ∃ maxOps d, A.Reach maxOps d ∧ AlgRel rel msg s d) ?_ ?_ ?_ ?_
  · refine ⟨0, A.start, .start, id, fun _ => [], ⟨?_, ?_⟩, fun r => ?_⟩
    · intro i _ hi
      cases hi
    · intro i hi
      cases hi
    · refine ⟨List.nodup_nil, by simp, ?_, h.init r⟩
      refine (Set.eq_empty_of_forall_notMem ?_).symm
      rintro x ⟨i, o, m, hl, -⟩
      cases hl
  · rintro s r o i s₁ hs ⟨k, d, hd, hrel⟩ hg hprep
    exact h.run_reject hs hd hrel hg hprep
  · rintro s r o i s₁ m hs ⟨k, d, hd, hrel⟩ hg hprep hl
    exact h.run_issue hs hd hrel hg hprep hl
  · rintro s r i o m hs ⟨k, d, hd, hrel⟩ hg hl hi
    exact ⟨k, h.run_deliver hs hd hrel hg hl hi⟩

omit [DecidableEq R] in
/-- An object that has no buffer. -/
theorem AlgRel.sysRel {rel : R → S → L → Prop} (hw : Obj.Wf s)
    (h : AlgRel (fun r x l buf => buf = [] ∧ rel r x l) msg s d) : SysRel rel msg s d := by
  obtain ⟨num, buf, hn, hp⟩ := h
  have hbuf : ∀ r, buf r = [] := fun r => by
    refine List.eq_nil_iff_forall_not_mem.mpr fun i hi => ?_
    obtain ⟨o, m, hl⟩ := hw.log r i ((hp r).recv i hi)
    have hnone := List.filterMap_eq_nil_iff.mp (hp r).loc.1 i hi
    simp [Sys.msg, hl] at hnone
  refine ⟨fun r => (hp r).loc.2, num, hn, fun r => ?_⟩
  rw [(hp r).ops, hbuf r, waiting_nil]

end Run

/-! ## Runs of the algorithm -/

/-- An object that can do what the algorithm does. -/
structure Covers (P : Obj R S O M) (A : Algorithm R L C N) (rel : R → S → L → Prop)
    (msg : M → N) (G : Sys R S M → Ev R O → Prop) : Prop where
  init : ∀ r, rel r (P.init r) (A.init r)
  issue : ∀ {s r l c l₁ x}, P.Reach G s → rel r (s.st r) l → A.prepare r l c = some (l₁, x) →
    ∃ o s₁ m, (∀ i, G s (.op r o i)) ∧ P.prepare r (s.st r) o = (s₁, some m) ∧ msg m = x ∧
      rel r (P.effect r s₁ m) (A.effect x l₁)
  receive : ∀ {s r i o m l}, P.Reach G s → s.log i = some (o, m) → i ∉ s.recv r →
    rel r (s.st r) l → A.ready l (msg m) →
    G s (.recv r i) ∧ rel r (P.effect r (s.st r) m) (A.effect (msg m) l)

section Covers

variable {P : Obj R S O M} {A : Algorithm R L C N} {rel : R → S → L → Prop}
  {msg : M → N} {G : Sys R S M → Ev R O → Prop} {s : Sys R S M} {d : Design.St R L N} {k : ℕ}

/-- There is always an identifier for a new broadcast. -/
theorem Obj.Reach.exists_fresh (hs : P.Reach G s) : ∃ i, s.log i = none := by
  have hfin : {i | (s.log i).isSome}.Finite := by
    refine hs.log_rule (I := fun log => {i | (log i).isSome}.Finite) (by simp) ?_
    intro s r o i s₁ m _ ih _ _ _
    refine (ih.insert i).subset fun j hj => ?_
    by_cases hji : j = i
    · exact .inl hji
    · exact .inr (by simpa [Obj.issue_log_ne hji] using hj)
  obtain ⟨i, hi⟩ := hfin.infinite_compl.nonempty
  exact ⟨i, by simpa using hi⟩

/-- **Every run of the algorithm is a run of the object.** -/
theorem Covers.run (h : Covers P A rel msg G) (hd : A.Reach k d) :
    ∃ s, P.Reach G s ∧ SysRel rel msg s d := by
  induction hd with
  | start =>
    refine ⟨P.start, .start, h.init, id, ⟨?_, ?_⟩, fun r => ?_⟩
    · intro i _ hi
      cases hi
    · intro i hi
      cases hi
    · refine (Set.eq_empty_of_forall_notMem ?_).symm
      rintro x ⟨i, o, m, hl, -⟩
      cases hl
  | step _ hstep ih =>
    obtain ⟨s, hs, hrel, num, hn, hops⟩ := ih
    cases hstep with
    | issue hlt hp =>
      rename_i d self c l x
      obtain ⟨o, s₁, m, hg, hprep, rfl, hr⟩ := h.issue hs (hrel self) hp
      obtain ⟨i, hl⟩ := hs.exists_fresh
      refine ⟨P.issue s self i s₁ m, .step (.op self o i) hs (hg i) (by simp [Obj.step, hprep, hl]),
        rel_update hrel hr, _, hn.issue, fun q => ?_⟩
      rw [pending_issue hs.wf hl, ← funext hops]
    | skip hlt hp =>
      exact ⟨s, hs, hrel, num, ⟨hn.inj, fun i hi => (hn.le i hi).trans (Nat.le_succ _)⟩, hops⟩
    | receive hx hr =>
      rename_i d self x
      rw [hops] at hx
      obtain ⟨i, o, m, hl, hi, rfl⟩ := hx
      obtain ⟨hg, hr'⟩ := h.receive hs hl hi (hrel self) hr
      refine ⟨P.deliver s self i m, .step (.recv self i) hs hg (by simp [Obj.step, hl, hi]),
        rel_update hrel hr', num, ⟨hn.inj, hn.le⟩, fun q => ?_⟩
      rw [pending_deliver hn hl, ← funext hops]

omit [DecidableEq R] in
/-- Processes that have the same operations to apply have received the same broadcasts. -/
theorem SysRel.recv_eq (h : SysRel rel msg s d) (hw : Obj.Wf s) {p q : R}
    (hops : d.ops p = d.ops q) : s.recv p = s.recv q := by
  obtain ⟨num, hn, hpend⟩ := h.ops
  have hsub : ∀ p q, s.pending msg num p = s.pending msg num q → s.recv p ⊆ s.recv q := by
    intro p q heq i hi
    by_contra hq
    obtain ⟨o, m, hl⟩ := hw.log p i hi
    have hx : (num i, msg m) ∈ s.pending msg num p := by
      rw [heq]
      exact ⟨i, o, m, hl, hq, rfl⟩
    obtain ⟨j, o', m', hj, hp, hji⟩ := hx
    obtain rfl := hn.inj i j (by simp [hl]) (by simp [hj]) (Prod.mk.inj hji).1
    exact hp hi
  rw [hpend, hpend] at hops
  exact (hsub p q hops).antisymm (hsub q p hops.symm)

end Covers

/-! ## The algorithm as a replicated object -/

namespace Algorithm

variable {A : Algorithm R L C M} {d : Design.St R L M} {k : ℕ}

/-- The algorithm as a replicated object. -/
def obj (A : Algorithm R L C M) : Obj R L C M where
  init := A.init
  prepare r l c := ((A.prepare r l c).elim l Prod.fst, (A.prepare r l c).map Prod.snd)
  effect _ l m := A.effect m l

omit [DecidableEq R] in
theorem obj_prepare_some {r : R} {l l₁ : L} {c : C} {m : M}
    (h : A.obj.prepare r l c = (l₁, some m)) : A.prepare r l c = some (l₁, m) := by
  obtain ⟨h₁, h₂⟩ := Prod.mk.inj h
  obtain ⟨⟨l', m'⟩, hp, rfl⟩ := Option.map_eq_some_iff.mp h₂
  rw [hp] at h₁
  cases h₁
  exact hp

omit [DecidableEq R] in
theorem obj_prepare_none {r : R} {l l₁ : L} {c : C} (h : A.obj.prepare r l c = (l₁, none)) :
    l₁ = l := by
  obtain ⟨h₁, h₂⟩ := Prod.mk.inj h
  rw [Option.map_eq_none_iff.mp h₂] at h₁
  exact h₁.symm

/-- A replica receives a broadcast that it is ready for. -/
def Guard (A : Algorithm R L C M) (s : Sys R L M) : Ev R C → Prop
  | .op _ _ _ => True
  | .recv r i => ∀ o m, s.log i = some (o, m) → A.ready (s.st r) m

theorem Reach.sys (hd : A.Reach k d) :
    ∃ s, A.obj.Reach A.Guard s ∧ SysRel (fun _ x l => x = l) id s d := by
  have h : Covers A.obj A (fun _ x l => x = l) id A.Guard := by
    refine ⟨fun _ => rfl, fun {s r l c l₁ x} _ hl hp => ?_, fun {s r i o m l} _ hlog _ hl hr => ?_⟩
    · subst hl
      exact ⟨c, l₁, x, fun _ => trivial, by simp [obj, hp], rfl, rfl⟩
    · subst hl
      refine ⟨fun o' m' hl' => ?_, rfl⟩
      rw [hlog] at hl'
      cases hl'
      exact hr
  exact h.run hd

end Algorithm

/-! ## Designs as algorithms -/

/-- A design as an algorithm, where no operation is taken whose assertion fails. -/
def Design.algorithm (D : Design R L C N) : Algorithm R L C N where
  init := D.init
  prepare r l c := (D.prepare r l c).map (l, ·)
  ready l m := (D.effect m l).isSome
  effect m l := (D.effect m l).getD l

section Design

variable {P : Obj R S O M} {D : Design R L C N} {rel : R → S → L → Prop} {msg : M → N}
  {cmd : O → Option C} {d : Design.St R L N} {k : ℕ}

theorem Design.Step.algorithm {d' : Design.St R L N} (h : D.Step k d d') :
    D.algorithm.Step k d d' := by
  cases h with
  | issue hlt hp he =>
    rename_i self c m l
    have hp' : D.algorithm.prepare self (d.loc self) c = some (d.loc self, m) := by
      simp [Design.algorithm, hp]
    have hl : D.algorithm.effect m (d.loc self) = l := by simp [Design.algorithm, he]
    exact hl ▸ .issue hlt hp'
  | skip hlt hp =>
    rename_i self c
    have hp' : D.algorithm.prepare self (d.loc self) c = none := by simp [Design.algorithm, hp]
    exact .skip hlt hp'
  | receive hx he =>
    rename_i self x l
    have hr : D.algorithm.ready (d.loc self) x.2 := by simp [Design.algorithm, he]
    have hl : D.algorithm.effect x.2 (d.loc self) = l := by simp [Design.algorithm, he]
    exact hl ▸ .receive hx hr

theorem Design.Reach.algorithm (hd : D.Reach k d) : D.algorithm.Reach k d := by
  induction hd with
  | start => exact .start
  | step _ hstep ih => exact ih.step hstep.algorithm

/-- What the effects of a design keep holds at every process. -/
theorem Design.Reach.loc_rule {I : L → Prop} (hinit : ∀ r, I (D.init r))
    (heff : ∀ m l l', I l → D.effect m l = some l' → I l') (hd : D.Reach k d) (r : R) :
    I (d.loc r) := by
  have hupd : ∀ {f : R → L} {self : R} {l : L}, (∀ r, I (f r)) → I l →
      ∀ r, I (Function.update f self l r) := by
    intro f self l hf hl r
    by_cases hr : r = self
    · rwa [hr, Function.update_self]
    · rw [Function.update_of_ne hr]
      exact hf r
  induction hd generalizing r with
  | start => exact hinit r
  | step _ hstep ih =>
    cases hstep with
    | issue _ _ he => exact hupd ih (heff _ _ _ (ih _) he) r
    | skip _ _ => exact ih r
    | receive _ he => exact hupd ih (heff _ _ _ (ih _) he) r

/-- An object that refines a design and has a command for each of its requests covers it. -/
theorem Refines.covers (h : Refines P D rel msg cmd) (hcmd : ∀ c, ∃ o, cmd o = some c) :
    Covers P D.algorithm rel msg anyOrder := by
  have heff : ∀ {r x l}, rel r x l →
      ∀ m, rel r (P.effect r x m) (D.algorithm.effect (msg m) l) := by
    intro r x l hx m
    obtain ⟨l', hl', hrel⟩ := h.effect hx m
    simpa [Design.algorithm, hl'] using hrel
  refine ⟨h.init, ?_, fun _ _ _ hrel _ => ⟨trivial, heff hrel _⟩⟩
  intro s r l c l₁ x _ hrel hp
  obtain ⟨y, hy, heq⟩ := Option.map_eq_some_iff.mp hp
  cases heq
  obtain ⟨o, ho⟩ := hcmd c
  obtain ⟨hrel₁, hres⟩ := h.prepare hrel (Prod.eta (P.prepare r (s.st r) o)).symm
  rw [ho, Option.bind_some, hy] at hres
  obtain ⟨m, hm, rfl⟩ := Option.map_eq_some_iff.mp hres
  exact ⟨o, _, m, fun _ => trivial, Prod.ext rfl hm, rfl, heff hrel₁ m⟩

end Design

end Broadcast
