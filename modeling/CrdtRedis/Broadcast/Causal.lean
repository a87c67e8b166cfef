import CrdtRedis.Broadcast.View

/-!
# Causal delivery with a buffer

An object that delivers in causal order stamps each message with its origin and a vector of
counters (`Stamp`). A replica keeps the vector of what it has applied; a message that is not ready
waits in a buffer, and after each message that is applied the buffer is searched again (`drain`).

`causalObj` is this mechanism alone: its state is the vector, the buffer and the history of the
messages applied, oldest first. An object with such a buffer has a view as `causalObj`.

* `drain_rule`, `drain_quiet`, `drain_of_le`: an invariant of one round holds of the loop; the
  loop ends after at most as many rounds as the buffer has messages, and leaves none that is ready.
* `CausalInv`: what holds in every reachable state (`causalObj_inv`): the messages of one origin are
  numbered, a message comes after all that its vector counts, and (`Local`) the vector of a
  replica counts what it applied.
* `Delivered`: what a replica applied is the largest causally closed part of what it received, in
  causal order, and the buffer holds the rest (`causalObj_delivered`).
-/

namespace Broadcast

/-! ## The loop over the buffer -/

section Drain

variable {S S' M : Type}

/-- The loop over a buffer: the first message that is ready is applied and leaves the buffer, until
none is ready. -/
def drain (ready : S → M → Bool) (exec : S → M → S) : ℕ → S → List M → S × List M
  | 0, s, ops => (s, ops)
  | k + 1, s, ops =>
    match ops.find? (ready s) with
    | none => (s, ops)
    | some m => drain ready exec k (exec s m) (ops.eraseP (ready s))

variable {ready : S → M → Bool} {exec : S → M → S}

theorem drain_none {k : ℕ} {s : S} {ops : List M} (h : ops.find? (ready s) = none) :
    drain ready exec k s ops = (s, ops) := by
  cases k with
  | zero => rfl
  | succ k => simp [drain, h]

theorem drain_some {k : ℕ} {s : S} {ops : List M} {m : M} (h : ops.find? (ready s) = some m) :
    drain ready exec (k + 1) s ops = drain ready exec k (exec s m) (ops.eraseP (ready s)) := by
  simp [drain, h]

/-- What is found and erased is an element of the list, and nothing else goes. -/
theorem perm_cons_eraseP {p : M → Bool} {l : List M} {m : M} (h : l.find? p = some m) :
    (m :: l.eraseP p).Perm l := by
  induction l with
  | nil => simp at h
  | cons a l ih =>
    by_cases ha : p a
    · simp only [List.find?_cons, ha, Option.some.injEq] at h
      subst h
      simp [ha]
    · simp only [List.find?_cons, ha] at h
      rw [List.eraseP_cons_of_neg (by simpa using ha)]
      exact (List.Perm.swap a m _).trans ((ih h).cons a)

theorem length_eraseP_of_find {p : M → Bool} {l : List M} {m : M} (h : l.find? p = some m) :
    (l.eraseP p).length + 1 = l.length :=
  (perm_cons_eraseP h).length_eq

/-- An invariant that each round keeps holds after the loop. -/
theorem drain_rule {I : S → List M → Prop}
    (step : ∀ s ops m, I s ops → ops.find? (ready s) = some m →
      I (exec s m) (ops.eraseP (ready s))) (k : ℕ) (s : S) (ops : List M) (h : I s ops) :
    I (drain ready exec k s ops).1 (drain ready exec k s ops).2 := by
  induction k generalizing s ops with
  | zero => exact h
  | succ k ih =>
    cases hf : ops.find? (ready s) with
    | none => rw [drain_none hf]; exact h
    | some m => rw [drain_some hf]; exact ih _ _ (step s ops m h hf)

/-- After as many rounds as the buffer has messages, none of the rest is ready. -/
theorem drain_quiet (ready : S → M → Bool) (exec : S → M → S) (k : ℕ) (s : S) (ops : List M)
    (hk : ops.length ≤ k) :
    (drain ready exec k s ops).2.find? (ready (drain ready exec k s ops).1) = none := by
  induction k generalizing s ops with
  | zero =>
    have : ops = [] := List.eq_nil_of_length_eq_zero (by omega)
    simp [drain, this]
  | succ k ih =>
    cases hf : ops.find? (ready s) with
    | none => rw [drain_none hf]; exact hf
    | some m =>
      rw [drain_some hf]
      exact ih _ _ (by have := length_eraseP_of_find hf; omega)

/-- The loop has ended by then: more rounds change nothing. -/
theorem drain_of_le (k : ℕ) (s : S) (ops : List M) (hk : ops.length ≤ k) :
    drain ready exec k s ops = drain ready exec ops.length s ops := by
  induction k generalizing s ops with
  | zero => rw [Nat.le_zero.mp hk]
  | succ k ih =>
    cases hf : ops.find? (ready s) with
    | none => rw [drain_none hf, drain_none hf]
    | some m =>
      have hl := length_eraseP_of_find hf
      rw [drain_some hf, ih _ _ (by omega), ← hl, drain_some hf]

theorem drain_subset (ready : S → M → Bool) (exec : S → M → S) (k : ℕ) (s : S) (ops : List M) :
    (drain ready exec k s ops).2 ⊆ ops :=
  drain_rule (I := fun _ ops' => ops' ⊆ ops)
    (fun _ _ _ h _ => List.Subset.trans List.eraseP_subset h) k s ops (List.Subset.refl ops)

/-- The loop seen through a map of the states, for states with `P` and messages with `Q`. -/
theorem drain_map (ready : S → M → Bool) (exec : S → M → S) {ready' : S' → M → Bool}
    {exec' : S' → M → S'} {P : S → Prop} {Q : M → Prop} (f : S → S')
    (hr : ∀ s m, P s → ready' (f s) m = ready s m)
    (he : ∀ s m, P s → Q m → f (exec s m) = exec' (f s) m ∧ P (exec s m))
    (k : ℕ) (s : S) (ops : List M) (hs : P s) (hops : ∀ m ∈ ops, Q m) :
    drain ready' exec' k (f s) ops =
      (f (drain ready exec k s ops).1, (drain ready exec k s ops).2) ∧
      P (drain ready exec k s ops).1 := by
  have hr' : ∀ s, P s → ready' (f s) = ready s := fun s hs => funext fun m => hr s m hs
  induction k generalizing s ops with
  | zero => exact ⟨rfl, hs⟩
  | succ k ih =>
    cases hf : ops.find? (ready s) with
    | none =>
      rw [drain_none hf, drain_none (by rw [hr' s hs]; exact hf)]
      exact ⟨rfl, hs⟩
    | some m =>
      obtain ⟨h₁, h₂⟩ := he s m hs (hops m (List.mem_of_find?_eq_some hf))
      rw [drain_some hf, drain_some (by rw [hr' s hs]; exact hf), hr' s hs, ← h₁]
      exact ih _ _ h₂ fun x hx => hops x (List.eraseP_subset hx)

end Drain

/-! ## The object -/

/-- The stamp of a message: its origin and its vector. -/
structure Stamp (n : ℕ) (M : Type) where
  o : M → Fin n
  t : M → Fin n → ℕ

/-- What a replica has applied: the vector that counts it, and the messages, oldest first. -/
structure Applied (n : ℕ) (M : Type) where
  cur : Fin n → ℕ
  hist : List M

/-- The state of a replica. -/
structure CausalSt (n : ℕ) (M : Type) where
  app : Applied n M
  ops : List M

variable {n : ℕ} {M : Type} (T : Stamp n M)

namespace Stamp

/-- The message is the next one of its origin, and the replica has applied all that the origin had
when it sent it. -/
def ready (a : Applied n M) (m : M) : Bool :=
  decide (∀ i, i ≠ T.o m → T.t m i ≤ a.cur i) && T.t m (T.o m) == a.cur (T.o m) + 1

def exec (a : Applied n M) (m : M) : Applied n M := ⟨a.cur ⊔ T.t m, a.hist ++ [m]⟩

/-- The vector of the next message of replica `r`. -/
def next (a : Applied n M) (r : Fin n) : Fin n → ℕ := Function.update a.cur r (a.cur r + 1)

end Stamp

/-- Causal delivery. A command is the message it sends, which needs the right stamp. -/
def causalObj : Obj (Fin n) (CausalSt n M) M M where
  init _ := ⟨⟨0, []⟩, []⟩
  prepare r s m := (s, if T.o m = r ∧ T.t m = Stamp.next s.app r then some m else none)
  effect _ s m :=
    if T.ready s.app m then
      let p := drain T.ready T.exec s.ops.length (T.exec s.app m) s.ops
      ⟨p.1, p.2⟩
    else { s with ops := s.ops ++ [m] }

variable {T}

theorem Stamp.ready_iff {a : Applied n M} {m : M} : T.ready a m = true ↔
    (∀ i, i ≠ T.o m → T.t m i ≤ a.cur i) ∧ T.t m (T.o m) = a.cur (T.o m) + 1 := by
  simp [Stamp.ready]

theorem causalObj_prepare {s s₁ : CausalSt n M} {r : Fin n} {o m : M}
    (h : (causalObj T).prepare r s o = (s₁, some m)) :
    s₁ = s ∧ T.o m = r ∧ T.t m = Stamp.next s.app r := by
  simp only [causalObj, Prod.mk.injEq, Option.ite_none_right_eq_some, Option.some.injEq] at h
  obtain ⟨rfl, hm, rfl⟩ := h
  exact ⟨rfl, hm⟩

theorem causalObj_reject {s s₁ : CausalSt n M} {r : Fin n} {o : M}
    (h : (causalObj T).prepare r s o = (s₁, none)) : s₁ = s :=
  (Prod.mk.inj h).1.symm

/-- A message that its origin has just prepared is ready there. -/
theorem ready_of_next {a : Applied n M} {r : Fin n} {m : M} (ho : T.o m = r)
    (ht : T.t m = Stamp.next a r) : T.ready a m = true := by
  refine Stamp.ready_iff.mpr ⟨fun i hi => ?_, ?_⟩
  · rw [ht, Stamp.next, Function.update_of_ne (ho ▸ hi)]
  · rw [ht, ho, Stamp.next, Function.update_self]

/-! ## One replica -/

/-- The vector of replica `r` counts the messages that it applied; these and the buffered ones are
the messages `D` that it received. -/
structure Local (T : Stamp n M) (r : Fin n) (D : M → Prop) (a : Applied n M) (ops : List M) :
    Prop where
  count : ∀ q k, 1 ≤ k → k ≤ a.cur q → ∃ m ∈ a.hist, T.o m = q ∧ T.t m q = k
  pos : ∀ m ∈ a.hist, 1 ≤ T.t m (T.o m)
  le : ∀ m ∈ a.hist, T.t m ≤ a.cur
  order : a.hist.Pairwise fun m m' => ¬ T.t m' ≤ T.t m
  nodup : (a.hist ++ ops).Nodup
  mem : ∀ m, m ∈ a.hist ++ ops ↔ D m
  own : ∀ m ∈ ops, T.o m ≠ r

section Local

variable {r : Fin n} {D D' : M → Prop} {a : Applied n M} {ops ops' : List M} {m : M}

theorem Local.init : Local T r (fun _ => False) ⟨0, []⟩ [] where
  count q k h₁ h₂ := by
    have : k ≤ 0 := h₂
    omega
  pos := by simp
  le := by simp
  order := List.Pairwise.nil
  nodup := List.nodup_nil
  mem := by simp
  own := by simp

theorem Local.congr (h : Local T r D a ops) (hD : ∀ m, D m ↔ D' m) : Local T r D' a ops :=
  { h with mem := fun m => (h.mem m).trans (hD m) }

/-- A message that is applied. -/
theorem Local.exec (h : Local T r D a ops) (hr : T.ready a m = true) (hsub : ops' ⊆ ops)
    (hnd : (a.hist ++ [m] ++ ops').Nodup) (hmem : ∀ x, x ∈ a.hist ++ [m] ++ ops' ↔ D' x) :
    Local T r D' (T.exec a m) ops' := by
  obtain ⟨hle, heq⟩ := Stamp.ready_iff.mp hr
  have hcur : ∀ q, q ≠ T.o m → (T.exec a m).cur q = a.cur q := fun q hq =>
    sup_eq_left.mpr (hle q hq)
  have hself : (T.exec a m).cur (T.o m) = a.cur (T.o m) + 1 := by
    show a.cur (T.o m) ⊔ T.t m (T.o m) = _
    rw [heq]; exact sup_eq_right.mpr (Nat.le_succ _)
  refine ⟨fun q k h₁ h₂ => ?_, fun x hx => ?_, fun x hx => ?_, ?_, hnd, hmem,
    fun x hx => h.own x (hsub hx)⟩
  · have hold : k ≤ a.cur q → ∃ m' ∈ (T.exec a m).hist, T.o m' = q ∧ T.t m' q = k := fun hk => by
      obtain ⟨m', hm', ho⟩ := h.count q k h₁ hk
      exact ⟨m', List.mem_append_left _ hm', ho⟩
    by_cases hq : q = T.o m
    · subst hq
      by_cases hk : k ≤ a.cur (T.o m)
      · exact hold hk
      · exact ⟨m, by simp [Stamp.exec], rfl, by omega⟩
    · exact hold (hcur q hq ▸ h₂)
  · rcases List.mem_append.mp hx with hx | hx
    · exact h.pos x hx
    · rw [List.mem_singleton.mp hx]; omega
  · rcases List.mem_append.mp hx with hx | hx
    · exact (h.le x hx).trans le_sup_left
    · rw [List.mem_singleton.mp hx]; exact le_sup_right
  · refine List.pairwise_append.mpr ⟨h.order, List.pairwise_singleton _ _, fun x hx y hy hxy => ?_⟩
    rw [List.mem_singleton.mp hy] at hxy
    have h₁ : T.t m (T.o m) ≤ T.t x (T.o m) := hxy (T.o m)
    have h₂ : T.t x (T.o m) ≤ a.cur (T.o m) := h.le x hx (T.o m)
    omega

/-- A message that is buffered. -/
theorem Local.buffer (h : Local T r D a ops) (hm : ¬ D m) (ho : T.o m ≠ r) :
    Local T r (fun x => D x ∨ x = m) a (ops ++ [m]) := by
  refine { h with nodup := ?_, mem := fun x => ?_, own := fun x hx => ?_ }
  · rw [← List.append_assoc]
    refine h.nodup.append (List.nodup_singleton m) ?_
    simpa [← h.mem] using hm
  · rw [← List.append_assoc, List.mem_append, h.mem, List.mem_singleton]
  · rcases List.mem_append.mp hx with hx | hx
    · exact h.own x hx
    · rw [List.mem_singleton.mp hx]; exact ho

/-- A message that is applied when it arrives. -/
theorem Local.receive (h : Local T r D a ops) (hm : ¬ D m) (hr : T.ready a m = true) :
    Local T r (fun x => D x ∨ x = m) (T.exec a m) ops := by
  have hp : (a.hist ++ [m] ++ ops).Perm (m :: (a.hist ++ ops)) := by simp
  refine h.exec hr (List.Subset.refl _) ?_ fun x => ?_
  · rw [hp.nodup_iff, List.nodup_cons]
    exact ⟨fun hx => hm ((h.mem m).mp hx), h.nodup⟩
  · rw [hp.mem_iff, List.mem_cons, h.mem, or_comm]

/-- The loop. -/
theorem Local.drain (h : Local T r D a ops) (k : ℕ) :
    Local T r D (drain T.ready T.exec k a ops).1 (drain T.ready T.exec k a ops).2 := by
  refine drain_rule (I := Local T r D) (fun a ops m h hf => ?_) k a ops h
  have hp : (a.hist ++ [m] ++ ops.eraseP (T.ready a)).Perm (a.hist ++ ops) := by
    rw [List.append_assoc]
    exact (perm_cons_eraseP hf).append_left _
  exact h.exec (List.find?_some hf) List.eraseP_subset (hp.nodup_iff.mpr h.nodup)
    fun x => hp.mem_iff.trans (h.mem x)

end Local

/-! ## The system -/

/-- The messages that replica `r` has received. -/
def received {S : Type} (s : Sys (Fin n) S M) (r : Fin n) (m : M) : Prop :=
  ∃ i ∈ s.recv r, ∃ o, s.log i = some (o, m)

/-- The messages that have been sent. -/
def broadcasts {S : Type} (s : Sys (Fin n) S M) (m : M) : Prop := ∃ i o, s.log i = some (o, m)

section Received

variable {S O : Type} {P : Obj (Fin n) S O M} {s : Sys (Fin n) S M} {r : Fin n} {i : ℕ} {s₁ : S}
  {m : M}

/-- The messages sent and received are those before and the new one. -/
theorem broadcasts_issue (hl : s.log i = none) (x : M) :
    broadcasts (P.issue s r i s₁ m) x ↔ broadcasts s x ∨ x = m := by
  constructor
  · rintro ⟨j, o, hj⟩
    rcases Obj.issue_log_cases hj with ⟨-, hx⟩ | ⟨-, hj⟩
    · exact .inr (Prod.mk.inj hx).2
    · exact .inl ⟨j, o, hj⟩
  · rintro (⟨j, o, hj⟩ | rfl)
    · exact ⟨j, o, Obj.issue_log_of_some hl hj⟩
    · exact ⟨i, r, Obj.issue_log_self⟩

theorem received_issue (hw : Obj.Wf s) (hl : s.log i = none) (q : Fin n)
    (x : M) : received (P.issue s r i s₁ m) q x ↔
      received s q x ∨ (q = r ∧ x = m) := by
  constructor
  · rintro ⟨j, hj, o, hlog⟩
    rcases Obj.issue_log_cases hlog with ⟨rfl, hx⟩ | ⟨hji, hlog'⟩
    · cases hx
      by_cases hq : q = r
      · exact .inr ⟨hq, rfl⟩
      · rw [Obj.issue_recv_ne hq] at hj
        exact absurd hj (hw.notMem_recv hl q)
    · refine .inl ⟨j, ?_, o, hlog'⟩
      by_cases hq : q = r
      · subst hq; simpa [hji] using hj
      · rwa [Obj.issue_recv_ne hq] at hj
  · rintro (⟨j, hj, o, hlog⟩ | ⟨rfl, rfl⟩)
    · refine ⟨j, ?_, o, Obj.issue_log_of_some hl hlog⟩
      by_cases hq : q = r
      · subst hq; simp [hj]
      · rwa [Obj.issue_recv_ne hq]
    · exact ⟨i, by simp, q, Obj.issue_log_self⟩

theorem received_deliver {o : Fin n} (hl : s.log i = some (o, m)) (q : Fin n) (x : M) :
    received (P.deliver s r i m) q x ↔ received s q x ∨ (q = r ∧ x = m) := by
  simp only [received, Obj.deliver_log]
  by_cases hq : q = r
  · subst hq
    simp only [Obj.deliver_recv_self, Finset.mem_insert, true_and, or_and_right, exists_or]
    rw [or_comm]
    refine or_congr_right ⟨?_, ?_⟩
    · rintro ⟨j, rfl, o', hlog⟩
      rw [hl] at hlog; cases hlog; rfl
    · rintro rfl
      exact ⟨i, rfl, o, hl⟩
  · simp [Obj.deliver_recv_ne hq, hq]

end Received

/-- What holds in every reachable state. -/
structure CausalInv (T : Stamp n M) (s : Sys (Fin n) (CausalSt n M) M) : Prop where
  origin : ∀ i o m, s.log i = some (o, m) → T.o m = o
  uniq : ∀ i j o m m', s.log i = some (o, m) → s.log j = some (o, m') → T.t m o = T.t m' o → i = j
  past : ∀ i o m, s.log i = some (o, m) → 1 ≤ T.t m o ∧ ∀ q k, 1 ≤ k → k ≤ T.t m q →
    (q = o ∧ k = T.t m o) ∨ ∃ j m', s.log j = some (q, m') ∧ T.t m' q = k ∧ T.t m' < T.t m
  loc : ∀ r, Local T r (received s r) (s.st r).app (s.st r).ops
  quiet : ∀ r, ∀ m ∈ (s.st r).ops, T.ready (s.st r).app m = false

section Inv

variable {s : Sys (Fin n) (CausalSt n M) M} {r : Fin n} {i : ℕ} {m : M}

/-- A message of replica `r` has been applied there. -/
theorem CausalInv.own (h : CausalInv T s) (hw : Obj.Wf s) (hl : s.log i = some (r, m)) :
    m ∈ (s.st r).app.hist := by
  have hm : received s r m := ⟨i, hw.own i r m hl, r, hl⟩
  rcases List.mem_append.mp (((h.loc r).mem m).mpr hm) with hm | hm
  · exact hm
  · exact absurd (h.origin i r m hl) ((h.loc r).own m hm)

/-- The two ways to take a message in, at a replica that has not received it. -/
theorem Local.effect {D : M → Prop} {x : CausalSt n M} (h : Local T r D x.app x.ops)
    (hq : ∀ m ∈ x.ops, T.ready x.app m = false) (hm : ¬ D m)
    (ho : T.ready x.app m = true ∨ T.o m ≠ r) :
    Local T r (fun y => D y ∨ y = m) ((causalObj T).effect r x m).app
        ((causalObj T).effect r x m).ops ∧
      ∀ y ∈ ((causalObj T).effect r x m).ops,
        T.ready ((causalObj T).effect r x m).app y = false := by
  by_cases hr : T.ready x.app m = true
  · simp only [causalObj, if_pos hr]
    refine ⟨(h.receive hm hr).drain _, fun y hy => ?_⟩
    have := List.find?_eq_none.mp (drain_quiet T.ready T.exec x.ops.length (T.exec x.app m)
      x.ops le_rfl) y hy
    simpa using this
  · simp only [causalObj, if_neg hr]
    refine ⟨h.buffer hm (ho.resolve_left hr), fun y hy => ?_⟩
    rcases List.mem_append.mp hy with hy | hy
    · exact hq y hy
    · rw [List.mem_singleton.mp hy]; simpa using hr

theorem Stamp.lt_next (a : Applied n M) (r : Fin n) : a.cur < Stamp.next a r := by
  refine Pi.lt_def.mpr ⟨fun q => ?_, r, by simp [Stamp.next]⟩
  by_cases hq : q = r
  · simp [Stamp.next, hq]
  · simp [Stamp.next, hq]

/-- The past of a new message: what its origin has applied. -/
theorem CausalInv.past_next (h : CausalInv T s) (ho : T.o m = r)
    (ht : T.t m = Stamp.next (s.st r).app r) :
    1 ≤ T.t m r ∧ ∀ q k, 1 ≤ k → k ≤ T.t m q →
      (q = r ∧ k = T.t m r) ∨ ∃ j m', s.log j = some (q, m') ∧ T.t m' q = k ∧ T.t m' < T.t m := by
  have hself : T.t m r = (s.st r).app.cur r + 1 := by simp [ht, Stamp.next]
  have hcur : (s.st r).app.cur < T.t m := ht ▸ Stamp.lt_next _ r
  refine ⟨by omega, fun q k h₁ h₂ => ?_⟩
  by_cases hk : k ≤ (s.st r).app.cur q
  · obtain ⟨m', hm', ho', hk'⟩ := (h.loc r).count q k h₁ hk
    obtain ⟨j, -, o, hl⟩ := ((h.loc r).mem m').mp (List.mem_append_left _ hm')
    have hoq : o = q := (h.origin j o m' hl).symm.trans ho'
    subst hoq
    exact .inr ⟨j, m', hl, hk', lt_of_le_of_lt ((h.loc r).le m' hm') hcur⟩
  · have hq : q = r := by
      by_contra hq
      rw [ht, Stamp.next, Function.update_of_ne hq] at h₂
      exact hk h₂
    subst hq
    exact .inl ⟨rfl, by omega⟩

theorem CausalInv.issue (h : CausalInv T s) (hw : Obj.Wf s) (ho : T.o m = r)
    (ht : T.t m = Stamp.next (s.st r).app r) (hl : s.log i = none) :
    CausalInv T ((causalObj T).issue s r i (s.st r) m) := by
  have hself : T.t m r = (s.st r).app.cur r + 1 := by simp [ht, Stamp.next]
  -- The messages of `r` so far have smaller numbers.
  have hfresh : ∀ j m', s.log j = some (r, m') → T.t m' r ≤ (s.st r).app.cur r := fun j m' hj =>
    (h.loc r).le m' (h.own hw hj) r
  have hnew : ¬ received s r m := by
    rintro ⟨j, -, o, hj⟩
    have hor : o = r := (h.origin j o m hj).symm.trans ho
    subst hor
    have := hfresh j m hj
    omega
  have heff := (h.loc r).effect (h.quiet r) hnew (.inl (ready_of_next ho ht))
  refine ⟨fun j o m' hj => ?_, fun j j' o m₁ m₂ hj hj' he => ?_, fun j o m' hj => ?_,
    fun q => ?_, fun q => ?_⟩
  · rcases Obj.issue_log_cases hj with ⟨-, hx⟩ | ⟨-, hj⟩
    · cases hx; exact ho
    · exact h.origin j o m' hj
  · rcases Obj.issue_log_cases hj with ⟨rfl, hx⟩ | ⟨-, hold⟩ <;>
      rcases Obj.issue_log_cases hj' with ⟨rfl, hx'⟩ | ⟨-, hold'⟩
    · rfl
    · cases hx
      have := hfresh j' m₂ hold'
      omega
    · cases hx'
      have := hfresh j m₁ hold
      omega
    · exact h.uniq j j' o m₁ m₂ hold hold' he
  · have hpast : 1 ≤ T.t m' o ∧ ∀ q k, 1 ≤ k → k ≤ T.t m' q → (q = o ∧ k = T.t m' o) ∨
        ∃ j m'', s.log j = some (q, m'') ∧ T.t m'' q = k ∧ T.t m'' < T.t m' := by
      rcases Obj.issue_log_cases hj with ⟨-, hx⟩ | ⟨-, hj⟩
      · cases hx; exact h.past_next ho ht
      · exact h.past j o m' hj
    refine ⟨hpast.1, fun q k h₁ h₂ => (hpast.2 q k h₁ h₂).imp_right ?_⟩
    rintro ⟨j', m'', hj', hk⟩
    exact ⟨j', m'', Obj.issue_log_of_some hl hj', hk⟩
  · by_cases hq : q = r
    · subst hq
      rw [Obj.issue_st_self]
      exact heff.1.congr fun x => by simp [received_issue hw hl]
    · rw [Obj.issue_st_ne hq]
      exact (h.loc q).congr fun x => by simp [received_issue hw hl, hq]
  · by_cases hq : q = r
    · subst hq; rw [Obj.issue_st_self]; exact heff.2
    · rw [Obj.issue_st_ne hq]; exact h.quiet q

theorem CausalInv.deliver {o : Fin n} (h : CausalInv T s) (hw : Obj.Wf s)
    (hl : s.log i = some (o, m)) (hi : i ∉ s.recv r) :
    CausalInv T ((causalObj T).deliver s r i m) := by
  have ho := h.origin i o m hl
  have hor : o ≠ r := fun e => hi (e ▸ hw.own i o m hl)
  have hnew : ¬ received s r m := by
    rintro ⟨j, hj, o', hl'⟩
    have hoo : o' = o := (h.origin j o' m hl').symm.trans ho
    subst hoo
    exact hi (h.uniq i j o' m m hl hl' rfl ▸ hj)
  have heff := (h.loc r).effect (h.quiet r) hnew (.inr (ho ▸ hor))
  refine ⟨h.origin, h.uniq, h.past, fun q => ?_, fun q => ?_⟩
  · by_cases hq : q = r
    · subst hq
      rw [Obj.deliver_st_self]
      exact heff.1.congr fun x => by simp [received_deliver hl]
    · rw [Obj.deliver_st_ne hq]
      exact (h.loc q).congr fun x => by simp [received_deliver hl, hq]
  · by_cases hq : q = r
    · subst hq; rw [Obj.deliver_st_self]; exact heff.2
    · rw [Obj.deliver_st_ne hq]; exact h.quiet q

/-- The invariant holds in every reachable state. -/
theorem causalObj_inv {G : Sys (Fin n) (CausalSt n M) M → Ev (Fin n) M → Prop}
    (hs : (causalObj T).Reach G s) : CausalInv T s := by
  refine hs.rule (I := CausalInv T) ?_ ?_ ?_ ?_
  · refine ⟨by simp [Obj.start], by simp [Obj.start], by simp [Obj.start], fun r => ?_, ?_⟩
    · exact Local.init.congr fun m => by simp [received, Obj.start]
    · simp [Obj.start, causalObj]
  · intro s r o i s₁ _ h _ hp
    have hst : Obj.reject s r s₁ = s := by
      rw [causalObj_reject hp, Obj.reject, Function.update_eq_self]
    rw [hst]; exact h
  · intro s r o i s₁ m hs h _ hp hl
    obtain ⟨rfl, ho, ht⟩ := causalObj_prepare hp
    exact h.issue hs.wf ho ht hl
  · intro s r i o m hs h _ hl hi
    exact h.deliver hs.wf hl hi

end Inv

/-! ## Causal order -/

/-- `A` holds with a message every message that was sent before it. -/
def CausallyClosed (T : Stamp n M) (sent A : M → Prop) : Prop :=
  ∀ m, A m → ∀ m', sent m' → T.t m' < T.t m → A m'

/-- What replica `r` applied, in this order, and what it buffers, of the messages `sent` of which
it received `D`. -/
structure Delivered (T : Stamp n M) (r : Fin n) (sent D : M → Prop) (hist ops : List M) :
    Prop where
  /-- Every message received is applied or buffered, and once. -/
  once : (hist ++ ops).Nodup
  split : ∀ m, m ∈ hist ∨ m ∈ ops ↔ D m
  /-- A message is applied after all that were sent before it. -/
  order : ∀ l₁ m l₂, hist = l₁ ++ m :: l₂ → ∀ m', sent m' → T.t m' < T.t m → m' ∈ l₁
  closed : CausallyClosed T sent (· ∈ hist)
  largest : ∀ A : M → Prop, (∀ m, A m → D m) → CausallyClosed T sent A → ∀ m, A m → m ∈ hist
  /-- The replica's own messages are never buffered. -/
  own : ∀ m ∈ ops, T.o m ≠ r
  /-- Nothing waits if nothing is missing. -/
  empty : CausallyClosed T sent D → ops = []

section Order

variable {s : Sys (Fin n) (CausalSt n M) M}

/-- A vector that counts a message is above the vector of the message. -/
theorem CausalInv.le_of_count (h : CausalInv T s) {m m' : M} (hm : broadcasts s m)
    (hm' : broadcasts s m') (hle : T.t m (T.o m) ≤ T.t m' (T.o m)) : T.t m ≤ T.t m' := by
  obtain ⟨i, o, hi⟩ := hm
  obtain ⟨j, o', hj⟩ := hm'
  have ho := h.origin i o m hi
  subst ho
  rcases (h.past j o' m' hj).2 _ _ (h.past i _ m hi).1 hle with ⟨rfl, he⟩ | ⟨k, m'', hk, he, hlt⟩
  · obtain rfl := h.uniq i j _ m m' hi hj he
    rw [hi] at hj; cases hj
    exact le_rfl
  · obtain rfl := h.uniq k i _ m'' m hk hi he
    rw [hi] at hk; cases hk
    exact hlt.le

/-- What the vector counts has been applied. -/
theorem CausalInv.applied (h : CausalInv T s) {r o : Fin n} {i : ℕ} {m : M}
    (hl : s.log i = some (o, m)) (hle : T.t m o ≤ (s.st r).app.cur o) :
    m ∈ (s.st r).app.hist := by
  obtain ⟨m', hm', ho, hk⟩ := (h.loc r).count o (T.t m o) (h.past i o m hl).1 hle
  obtain ⟨j, -, o', hj⟩ := ((h.loc r).mem m').mp (List.mem_append_left _ hm')
  have hoo : o' = o := (h.origin j o' m' hj).symm.trans ho
  subst hoo
  have hij := h.uniq j i o' m' m hj hl hk
  subst hij
  rw [hl] at hj; cases hj
  exact hm'

/-- No vector counts more messages of a replica than the replica has sent. -/
theorem CausalInv.le_cur (h : CausalInv T s) (hw : Obj.Wf s) {i : ℕ} {o : Fin n} {m : M}
    (hl : s.log i = some (o, m)) (q : Fin n) : T.t m q ≤ (s.st q).app.cur q := by
  rcases Nat.eq_zero_or_pos (T.t m q) with h0 | h1
  · omega
  · rcases (h.past i o m hl).2 q _ h1 le_rfl with ⟨rfl, -⟩ | ⟨j, m', hj, hk, -⟩
    · exact (h.loc q).le m (h.own hw hl) q
    · exact hk ▸ (h.loc q).le m' (h.own hw hj) q

/-- What is below a new message of replica `r` is what `r` has applied. -/
theorem CausalInv.mem_hist_iff (h : CausalInv T s) (hw : Obj.Wf s) {r : Fin n} {m : M}
    (ht : T.t m = Stamp.next (s.st r).app r) (m' : M) :
    m' ∈ (s.st r).app.hist ↔ broadcasts s m' ∧ T.t m' < T.t m := by
  constructor
  · intro hm'
    obtain ⟨j, -, o, hl⟩ := ((h.loc r).mem m').mp (List.mem_append_left _ hm')
    exact ⟨⟨j, o, hl⟩, lt_of_le_of_lt ((h.loc r).le m' hm') (ht ▸ Stamp.lt_next _ r)⟩
  · rintro ⟨⟨j, o, hl⟩, hlt⟩
    by_cases ho : o = r
    · exact h.own hw (ho ▸ hl)
    · refine h.applied hl ?_
      have hle := hlt.le o
      rwa [ht, Stamp.next, Function.update_of_ne ho] at hle

/-- A message of the replica's own makes no buffered one ready: those wait for others. -/
theorem CausalInv.quiet_next (h : CausalInv T s) (hw : Obj.Wf s) {r : Fin n} {m : M}
    (ht : T.t m = Stamp.next (s.st r).app r) (y : M) (hy : y ∈ (s.st r).ops) :
    T.ready (T.exec (s.st r).app m) y = false := by
  obtain ⟨j, -, o, hl⟩ := ((h.loc r).mem y).mp (List.mem_append_right _ hy)
  have ho : T.o y ≠ r := (h.loc r).own y hy
  have hcur : ∀ q, q ≠ r → (T.exec (s.st r).app m).cur q = (s.st r).app.cur q := by
    intro q hq
    show (s.st r).app.cur q ⊔ T.t m q = _
    rw [ht, Stamp.next, Function.update_of_ne hq, sup_idem]
  by_contra hready
  obtain ⟨hle, heq⟩ := Stamp.ready_iff.mp (by simpa using hready)
  have hold : T.ready (s.st r).app y = true := by
    refine Stamp.ready_iff.mpr ⟨fun q hq => ?_, by rw [heq, hcur _ ho]⟩
    by_cases hqr : q = r
    · exact hqr ▸ h.le_cur hw hl q
    · exact (hle q hq).trans_eq (hcur q hqr)
  rw [h.quiet r y hy] at hold
  cases hold

/-- A message all of whose past has been applied, and that has not, is ready. -/
theorem CausalInv.ready_of_past (h : CausalInv T s) {r o : Fin n} {i : ℕ} {m : M}
    (hl : s.log i = some (o, m)) (hm : m ∉ (s.st r).app.hist)
    (hpast : ∀ m', broadcasts s m' → T.t m' < T.t m → m' ∈ (s.st r).app.hist) :
    T.ready (s.st r).app m = true := by
  have ho := h.origin i o m hl
  obtain ⟨hpos, hp⟩ := h.past i o m hl
  -- Each number that the vector of `m` counts, up to its own, has been applied.
  have hcount : ∀ q k, 1 ≤ k → k ≤ T.t m q → ¬ (q = o ∧ k = T.t m o) →
      k ≤ (s.st r).app.cur q := fun q k h₁ h₂ hne => by
    obtain ⟨j, m', hj, hk, hlt⟩ := (hp q k h₁ h₂).resolve_left hne
    exact hk ▸ (h.loc r).le m' (hpast m' ⟨j, q, hj⟩ hlt) q
  have hnot : ¬ T.t m o ≤ (s.st r).app.cur o := fun hle => hm (h.applied hl hle)
  refine Stamp.ready_iff.mpr ⟨fun q hq => ?_, ?_⟩
  · rcases Nat.eq_zero_or_pos (T.t m q) with h0 | h1
    · omega
    · exact hcount q _ h1 le_rfl fun hqo => hq (hqo.1.trans ho.symm)
  · rw [ho]
    rcases Nat.lt_or_ge 1 (T.t m o) with h1 | h1
    · have := hcount o (T.t m o - 1) (by omega) (by omega) (by omega)
      omega
    · omega

/-- **Causal delivery.** -/
theorem CausalInv.delivered (h : CausalInv T s) (r : Fin n) :
    Delivered T r (broadcasts s) (received s r) (s.st r).app.hist (s.st r).ops := by
  have hloc := h.loc r
  have hsplit : ∀ m, m ∈ (s.st r).app.hist ∨ m ∈ (s.st r).ops ↔ received s r m := fun m => by
    rw [← List.mem_append]; exact hloc.mem m
  have hclosed : CausallyClosed T (broadcasts s) (· ∈ (s.st r).app.hist) := by
    rintro m hm m' ⟨i, o, hl⟩ hlt
    exact h.applied hl ((hlt.le o).trans (hloc.le m hm o))
  have hlargest : ∀ A : M → Prop, (∀ m, A m → received s r m) →
      CausallyClosed T (broadcasts s) A → ∀ m, A m → m ∈ (s.st r).app.hist := by
    intro A hA hc m hm
    -- By induction on the sum of the vector: all that is below `m` has been applied.
    induction hk : ∑ q, T.t m q using Nat.strong_induction_on generalizing m with
    | _ k ih =>
      by_contra hnot
      obtain ⟨i, -, o, hl⟩ := hA m hm
      have hr := h.ready_of_past hl hnot fun m' hm' hlt => by
        have hsum : ∑ q, T.t m' q < ∑ q, T.t m q := by
          obtain ⟨hle, q, hq⟩ := Pi.lt_def.mp hlt
          exact Finset.sum_lt_sum (fun q _ => hle q) ⟨q, Finset.mem_univ q, hq⟩
        exact ih _ (hk ▸ hsum) m' (hc m hm m' hm' hlt) rfl
      rw [h.quiet r m (((hsplit m).mpr (hA m hm)).resolve_left hnot)] at hr
      cases hr
  refine ⟨hloc.nodup, hsplit, fun l₁ m l₂ heq m' hm' hlt => ?_, hclosed, hlargest, hloc.own,
    fun hD => List.eq_nil_iff_forall_not_mem.mpr fun m hm => ?_⟩
  · have hmem : m' ∈ l₁ ++ m :: l₂ := heq ▸ hclosed m (by simp [heq]) m' hm' hlt
    have hord := heq ▸ hloc.order
    rcases List.mem_append.mp hmem with h₁ | h₁
    · exact h₁
    · rcases List.mem_cons.mp h₁ with rfl | h₂
      · exact absurd hlt (lt_irrefl _)
      · exact absurd hlt.le ((List.pairwise_cons.mp (List.pairwise_append.mp hord).2.1).1 m' h₂)
  · have hh := hlargest (received s r) (fun _ h => h) hD m ((hsplit m).mp (.inr hm))
    exact (List.nodup_append.mp hloc.nodup).2.2 m hh m hm rfl

end Order

/-! ## The moment a message was sent -/

section Issued

variable {S O : Type} {P : Obj (Fin n) S O M} (v : View P (causalObj T))
  {G : Sys (Fin n) S M → Ev (Fin n) O → Prop} {s : Sys (Fin n) S M}

/-- What causal delivery sees of a run. -/
def View.causal (s : Sys (Fin n) S M) : Sys (Fin n) (CausalSt n M) M :=
  ⟨fun r => v.st r (s.st r), s.log, s.sent, s.recv⟩

/-- A state in which replica `r` sends `m`, as broadcast `i`. -/
structure SentAt (P : Obj (Fin n) S O M) (G : Sys (Fin n) S M → Ev (Fin n) O → Prop)
    (s : Sys (Fin n) S M) (r : Fin n) (i : ℕ) (m : M) : Prop where
  reach : P.Reach G s
  sent : ∃ c s₁, G s (.op r c i) ∧ P.prepare r (s.st r) c = (s₁, some m)

variable {v}

theorem View.causal_inv (hmsg : ∀ m, v.msg m = some m)
    (hop : ∀ s r o i, G s (.op r o i) → v.okOp r (s.st r) o) (hs : P.Reach G s) :
    CausalInv T (v.causal s) ∧ ∀ r, v.inv r (s.st r) := by
  obtain ⟨hQ, hinv, -⟩ := v.reach (H := anyOrder) hop (fun _ _ _ _ => trivial)
    (fun _ _ _ _ _ _ _ => trivial) hs
  have h := causalObj_inv hQ
  rw [View.sys_total hmsg hs.wf] at h
  exact ⟨h, hinv⟩

/-- **What a message is above of is what its origin had applied when it sent it.** -/
theorem View.sentAt (hmsg : ∀ m, v.msg m = some m)
    (hop : ∀ s r o i, G s (.op r o i) → v.okOp r (s.st r) o) (hs : P.Reach G s) {i : ℕ} {o : Fin n}
    {m : M} (hl : s.log i = some (o, m)) :
    ∃ s₀, SentAt P G s₀ o i m ∧
      ∀ m', m' ∈ (v.st o (s₀.st o)).app.hist ↔ broadcasts s m' ∧ T.t m' < T.t m := by
  refine hs.rule (I := fun s => ∀ i o m, s.log i = some (o, m) → ∃ s₀, SentAt P G s₀ o i m ∧
    ∀ m', m' ∈ (v.st o (s₀.st o)).app.hist ↔ broadcasts s m' ∧ T.t m' < T.t m) ?_ ?_ ?_ ?_ i o m hl
  · intro i o m hl
    cases hl
  · intro s r o i s₁ _ ih _ _
    exact ih
  · intro s r c i s₁ m hs ih hg hp hfree j o m₀ hj
    obtain ⟨h, hinv⟩ := View.causal_inv hmsg hop hs
    obtain ⟨c', hc'⟩ := v.accept (hinv r) (hop s r c i hg) hp (hmsg m)
    obtain ⟨-, -, ht⟩ := causalObj_prepare hc'
    have hw : Obj.Wf (v.causal s) := ⟨hs.wf.own, hs.wf.log, hs.wf.sent⟩
    -- The new message is below no message.
    have hnew : ∀ {j o m₀}, s.log j = some (o, m₀) → ¬ T.t m < T.t m₀ := by
      intro j o m₀ hl hlt
      have h₁ : T.t m₀ r ≤ (v.st r (s.st r)).app.cur r := h.le_cur hw hl r
      have h₂ : T.t m r = (v.st r (s.st r)).app.cur r + 1 := by simp [ht, Stamp.next]
      have h₃ : T.t m r ≤ T.t m₀ r := hlt.le r
      omega
    rcases Obj.issue_log_cases hj with ⟨rfl, hx⟩ | ⟨-, hj⟩
    · obtain ⟨rfl, rfl⟩ := Prod.mk.inj hx
      refine ⟨s, ⟨hs, c, s₁, hg, hp⟩, fun m' => (h.mem_hist_iff hw ht m').trans ?_⟩
      refine and_congr_left fun hlt => (or_iff_left fun he => ?_).symm.trans
        (broadcasts_issue hfree m').symm
      exact lt_irrefl _ (he ▸ hlt)
    · obtain ⟨s₀, h₀, hiff⟩ := ih j o m₀ hj
      refine ⟨s₀, h₀, fun m' => (hiff m').trans ?_⟩
      refine and_congr_left fun hlt => (or_iff_left fun he => ?_).symm.trans
        (broadcasts_issue hfree m').symm
      exact hnew hj (he ▸ hlt)
  · intro s r i o m _ ih _ _ _
    exact ih

end Issued

end Broadcast
