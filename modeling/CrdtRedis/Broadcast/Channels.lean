import CrdtRedis.Broadcast.Sys

/-!
# Channels

A system in which messages travel over channels (`Chans`): an accepted command appends its message
to the channel from its origin to each other replica, and a delivery takes the first message of a
channel. No broadcast has an identifier here, and no one records what was received.

* `Obj.ChanReach`: the states that a run over channels reaches.
* `ChanReach.refines`: such a run is a run of the broadcast system with FIFO delivery, where a
  channel holds the broadcasts of its origin that its end has not received (`Cut`).
* `ChanRefines.recv_eq`: where the channels are empty, every replica has received every broadcast.
-/

namespace Broadcast

variable {R S O M : Type} [DecidableEq R]

/-- The state of each replica, and the messages on the way from one replica to another. -/
structure Chans (R S M : Type) where
  st : R → S
  chan : R → R → List M

namespace Obj

variable (P : Obj R S O M)

/-- Replica `r`, in state `s₁` after its prepare phase, applies and sends `m`. -/
def send (c : Chans R S M) (r : R) (s₁ : S) (m : M) : Chans R S M where
  st := Function.update c.st r (P.effect r s₁ m)
  chan q p := if q = r then c.chan q p ++ [m] else c.chan q p

/-- Replica `r` takes `m` from the channel from `q`, which leaves `rest`, and applies it. -/
def take (c : Chans R S M) (q r : R) (m : M) (rest : List M) : Chans R S M where
  st := Function.update c.st r (P.effect r (c.st r) m)
  chan a b := if a = q ∧ b = r then rest else c.chan a b

/-- The states that a run over channels reaches, whose commands satisfy `ok`. -/
inductive ChanReach (ok : R → S → O → Prop) : Chans R S M → Prop
  | start : ChanReach ok ⟨P.init, fun _ _ => []⟩
  | reject {c : Chans R S M} {r : R} {o : O} {s₁ : S} : ChanReach ok c → ok r (c.st r) o →
      P.prepare r (c.st r) o = (s₁, none) →
      ChanReach ok { c with st := Function.update c.st r s₁ }
  | send {c : Chans R S M} {r : R} {o : O} {s₁ : S} {m : M} : ChanReach ok c → ok r (c.st r) o →
      P.prepare r (c.st r) o = (s₁, some m) → ChanReach ok (P.send c r s₁ m)
  | take {c : Chans R S M} {q r : R} {m : M} {rest : List M} : ChanReach ok c → q ≠ r →
      c.chan q r = m :: rest → ChanReach ok (P.take c q r m rest)

end Obj

/-- FIFO delivery, of commands that satisfy `ok`. -/
def fifoOf (ok : R → S → O → Prop) (s : Sys R S M) (e : Ev R O) : Prop :=
  fifo s e ∧ ∀ r o i, e = .op r o i → ok r (s.st r) o

/-- Replica `r` has received a first part of the broadcasts of `q`; the messages `l` are those of
the others. -/
def Cut (s : Sys R S M) (q r : R) (l : List M) : Prop :=
  ∃ got due, s.sent q = got ++ due ∧ (∀ i ∈ got, i ∈ s.recv r) ∧ (∀ i ∈ due, i ∉ s.recv r) ∧
    due.map s.msg = l.map some

/-- The broadcast system `s` is in the state that the channels are in. -/
structure ChanRefines (P : Obj R S O M) (ok : R → S → O → Prop) (c : Chans R S M)
    (s : Sys R S M) : Prop where
  reach : P.Reach (fifoOf ok) s
  st : s.st = c.st
  fresh : ∃ b, ∀ i, b ≤ i → s.log i = none
  nodup : ∀ q, (s.sent q).Nodup
  sent : ∀ i o m, s.log i = some (o, m) → i ∈ s.sent o
  cut : ∀ q r, q ≠ r → Cut s q r (c.chan q r)

section

variable {P : Obj R S O M} {ok : R → S → O → Prop} {c : Chans R S M} {s : Sys R S M}
  {q r p : R} {i : ℕ} {o : O} {s₁ : S} {m : M} {l rest : List M}

/-- What a new broadcast does to the cuts: it is due at every other replica. -/
theorem Cut.issue (h : Cut s q p l) (hw : Obj.Wf s) (hi : s.log i = none) (hqp : q ≠ p) :
    Cut (P.issue s r i s₁ m) q p (if q = r then l ++ [m] else l) := by
  obtain ⟨got, due, hsent, hgot, hdue, hmsg⟩ := h
  have hne : ∀ j ∈ s.sent q, j ≠ i := by
    rintro j hj rfl
    obtain ⟨m', hl⟩ := hw.sent q j hj
    simp [hi] at hl
  have hold : ∀ j ∈ due, j ≠ i := fun j hj => hne j (hsent ▸ List.mem_append_right got hj)
  have hrecv : ∀ j, j ≠ i → (j ∈ (P.issue s r i s₁ m).recv p ↔ j ∈ s.recv p) := by
    intro j hj
    by_cases hp : p = r
    · subst hp
      simp [hj]
    · rw [Obj.issue_recv_ne hp]
  have hmsg' : due.map (P.issue s r i s₁ m).msg = l.map some := by
    rw [← hmsg]
    refine List.map_congr_left fun j hj => ?_
    simp only [Sys.msg, Obj.issue_log_ne (hold j hj)]
  have hgot' : ∀ j ∈ got, j ∈ (P.issue s r i s₁ m).recv p := fun j hj =>
    (hrecv j (hne j (hsent ▸ List.mem_append_left due hj))).mpr (hgot j hj)
  have hdue' : ∀ j ∈ due, j ∉ (P.issue s r i s₁ m).recv p := fun j hj hmem =>
    hdue j hj ((hrecv j (hold j hj)).mp hmem)
  by_cases hq : q = r
  · subst hq
    rw [if_pos rfl]
    refine ⟨got, due ++ [i], ?_, hgot', ?_, ?_⟩
    · rw [Obj.issue_sent_self, hsent, List.append_assoc]
    · intro j hj
      rcases List.mem_append.mp hj with hj | hj
      · exact hdue' j hj
      · obtain rfl := List.mem_singleton.mp hj
        rw [Obj.issue_recv_ne hqp.symm]
        exact hw.notMem_recv hi p
    · simp [hmsg', Sys.msg]
  · rw [if_neg hq]
    exact ⟨got, due, by rw [Obj.issue_sent_ne hq, hsent], hgot', hdue', hmsg'⟩

omit [DecidableEq R] in
/-- The first message of a channel is that of the first broadcast that is due. -/
theorem Cut.first (h : Cut s q r (m :: rest)) (hw : Obj.Wf s) :
    ∃ got i due, s.sent q = got ++ i :: due ∧ (∀ j ∈ got, j ∈ s.recv r) ∧
      (∀ j ∈ i :: due, j ∉ s.recv r) ∧ s.log i = some (q, m) ∧ due.map s.msg = rest.map some := by
  obtain ⟨got, due, hsent, hgot, hdue, hmsg⟩ := h
  cases due with
  | nil => simp at hmsg
  | cons i due =>
    simp only [List.map_cons, List.cons.injEq] at hmsg
    obtain ⟨m', hl⟩ := hw.sent q i (by simp [hsent])
    have hm : m' = m := by simpa [Sys.msg, hl] using hmsg.1
    exact ⟨got, i, due, hsent, hgot, hdue, hm ▸ hl, hmsg.2⟩

/-- A delivery on another channel changes no cut: what is delivered has another origin. -/
theorem Cut.deliver {a b : R} (h : Cut s a b l) (hw : Obj.Wf s) (hl : s.log i = some (q, m))
    (hab : ¬(a = q ∧ b = r)) : Cut (P.deliver s r i m) a b l := by
  obtain ⟨got, due, hsent, hgot, hdue, hmsg⟩ := h
  refine ⟨got, due, hsent, fun j hj => ?_, fun j hj hmem => hdue j hj ?_, hmsg⟩
  · by_cases hb : b = r
    · subst hb
      simp [hgot j hj]
    · rw [Obj.deliver_recv_ne hb]
      exact hgot j hj
  · by_cases hb : b = r
    · subst hb
      simp only [Obj.deliver_recv_self, Finset.mem_insert] at hmem
      rcases hmem with rfl | hmem
      · obtain ⟨m', hl'⟩ := hw.sent a j (hsent ▸ List.mem_append_right got hj)
        rw [hl] at hl'
        cases hl'
        exact absurd ⟨rfl, rfl⟩ hab
      · exact hmem
    · rwa [Obj.deliver_recv_ne hb] at hmem

theorem ChanRefines.send (h : ChanRefines P ok c s) (hok : ok r (c.st r) o)
    (hp : P.prepare r (c.st r) o = (s₁, some m)) : ∃ s', ChanRefines P ok (P.send c r s₁ m) s' := by
  obtain ⟨b, hb⟩ := h.fresh
  have hi := hb b le_rfl
  have hw := h.reach.wf
  have hst : P.prepare r (s.st r) o = (s₁, some m) := by rw [h.st, hp]
  have hstep : P.step s (.op r o b) = some (P.issue s r b s₁ m) := by simp [Obj.step, hst, hi]
  refine ⟨P.issue s r b s₁ m,
    ⟨.step (.op r o b) h.reach ⟨trivial, ?_⟩ hstep, ?_, ⟨b + 1, ?_⟩, ?_, ?_, ?_⟩⟩
  · rintro _ _ _ ⟨⟩
    rw [h.st]
    exact hok
  · simp [Obj.issue, Obj.send, h.st]
  · intro j hj
    rw [Obj.issue_log_ne (by omega)]
    exact hb j (by omega)
  · intro q
    by_cases hq : q = r
    · subst hq
      rw [Obj.issue_sent_self]
      refine List.nodup_append.mpr ⟨h.nodup q, by simp, ?_⟩
      rintro j hj k hk rfl
      obtain rfl := List.mem_singleton.mp hk
      obtain ⟨m', hl⟩ := hw.sent q j hj
      simp [hi] at hl
    · rw [Obj.issue_sent_ne hq]
      exact h.nodup q
  · intro j o' m' hj
    rcases Obj.issue_log_cases hj with ⟨rfl, hx⟩ | ⟨-, hj'⟩
    · cases hx
      simp
    · by_cases ho : o' = r
      · subst ho
        simp [h.sent j o' m' hj']
      · rw [Obj.issue_sent_ne ho]
        exact h.sent j o' m' hj'
  · exact fun q p hqp => (h.cut q p hqp).issue hw hi hqp

theorem ChanRefines.take (h : ChanRefines P ok c s) (hqr : q ≠ r) (hc : c.chan q r = m :: rest) :
    ∃ s', ChanRefines P ok (P.take c q r m rest) s' := by
  have hw := h.reach.wf
  have hcut := h.cut q r hqr
  rw [hc] at hcut
  obtain ⟨got, i, due, hsent, hgot, hdue, hl, hmsg⟩ := hcut.first hw
  have hi : i ∉ s.recv r := hdue i List.mem_cons_self
  have hstep : P.step s (.recv r i) = some (P.deliver s r i m) := by simp [Obj.step, hl, hi]
  -- What was sent before the first broadcast that is due was received.
  have hfifo : fifoOf ok s (.recv r i) := by
    refine ⟨?_, fun _ _ _ he => by cases he⟩
    intro o m' hl' j hj
    obtain ⟨rfl, rfl⟩ : q = o ∧ m = m' := by simpa [hl] using hl'
    have hbefore : ∀ k ∈ got, decide (k ≠ i) = true := by
      intro k hk
      simp only [ne_eq, decide_eq_true_eq]
      rintro rfl
      exact hi (hgot k hk)
    rw [hsent, List.takeWhile_append_of_pos hbefore, List.takeWhile_cons_of_neg (by simp),
      List.append_nil] at hj
    exact hgot j hj
  refine ⟨P.deliver s r i m, ⟨.step _ h.reach hfifo hstep, ?_, h.fresh, h.nodup, h.sent, ?_⟩⟩
  · simp [Obj.deliver, Obj.take, h.st]
  · intro a b hab
    by_cases heq : a = q ∧ b = r
    · obtain ⟨rfl, rfl⟩ := heq
      have hnd : i ∉ due := by
        have hnodup := h.nodup a
        rw [hsent] at hnodup
        exact (List.nodup_cons.mp (List.nodup_append.mp hnodup).2.1).1
      simp only [Obj.take, and_self, if_true]
      refine ⟨got ++ [i], due, by simp [hsent], fun j hj => ?_, fun j hj hmem => ?_, hmsg⟩
      · rcases List.mem_append.mp hj with hj | hj
        · simp [hgot j hj]
        · simp [List.mem_singleton.mp hj]
      · simp only [Obj.deliver_recv_self, Finset.mem_insert] at hmem
        rcases hmem with rfl | hmem
        · exact hnd hj
        · exact hdue j (List.mem_cons_of_mem i hj) hmem
    · simp only [Obj.take, if_neg heq]
      exact (h.cut a b hab).deliver hw hl heq

/-- **A run over channels is a run with FIFO delivery.** -/
theorem Obj.ChanReach.refines (h : P.ChanReach ok c) : ∃ s, ChanRefines P ok c s := by
  induction h with
  | start =>
    exact ⟨P.start, .start, rfl, ⟨0, fun _ _ => rfl⟩, fun _ => List.nodup_nil, nofun,
      fun _ _ _ => ⟨[], [], rfl, nofun, nofun, rfl⟩⟩
  | @reject c r o s₁ _ hok hp ih =>
    obtain ⟨s, h⟩ := ih
    have hstep : P.step s (.op r o 0) = some (Obj.reject s r s₁) := by
      simp [Obj.step, h.st, hp]
    refine ⟨Obj.reject s r s₁, ⟨.step (.op r o 0) h.reach ⟨trivial, ?_⟩ hstep, ?_, h.fresh, h.nodup,
      h.sent, h.cut⟩⟩
    · rintro _ _ _ ⟨⟩
      rw [h.st]
      exact hok
    · simp [Obj.reject, h.st]
  | send _ hok hp ih =>
    obtain ⟨s, h⟩ := ih
    exact h.send hok hp
  | take _ hqr hc ih =>
    obtain ⟨s, h⟩ := ih
    exact h.take hqr hc

/-- Where the channels to `r` are empty, `r` has received every broadcast. -/
theorem ChanRefines.mem_recv (h : ChanRefines P ok c s) (hc : ∀ q, q ≠ r → c.chan q r = [])
    {x : R × M} (hl : s.log i = some x) : i ∈ s.recv r := by
  obtain ⟨o, m⟩ := x
  by_cases ho : o = r
  · subst ho
    exact h.reach.wf.own i o m hl
  · obtain ⟨got, due, hsent, hgot, -, hmsg⟩ := h.cut o r ho
    rw [hc o ho, List.map_nil, List.map_eq_nil_iff] at hmsg
    have hi := h.sent i o m hl
    rw [hsent, hmsg, List.append_nil] at hi
    exact hgot i hi

/-- Where the channels are empty, the replicas have received the same broadcasts. -/
theorem ChanRefines.recv_eq (h : ChanRefines P ok c s) (hc : ∀ q r, q ≠ r → c.chan q r = [])
    (q r : R) : s.recv q = s.recv r := by
  ext i
  constructor
  · intro hi
    obtain ⟨o, m, hl⟩ := h.reach.wf.log q i hi
    exact h.mem_recv (fun p hp => hc p r hp) hl
  · intro hi
    obtain ⟨o, m, hl⟩ := h.reach.wf.log r i hi
    exact h.mem_recv (fun p hp => hc p q hp) hl

end

end Broadcast
