import CrdtRedis.Broadcast.Past

/-!
# Views of a replicated object

A view (`View P Q`) shows the runs of an object `P` as runs of an object `Q`: it maps the state of
each replica, and maps each message to a message of `Q` or hides it. Where a message is hidden,
its effect does not change what the view shows. The states that `P` reaches then look like states
that `Q` reaches (`View.reach`), so an invariant of `Q` holds of every run of `P`. The same holds
of the record of what came before each broadcast (`View.hist`).

A view may need an invariant of `P`'s states (`inv`) and restrict the commands (`okOp`) and with
them the messages (`okMsg`).

`Obj.keyed` is the product of one object for each key: a command and a message name the key they
are about and change the state of that key only. `keyedView k` shows key `k` alone.
-/

namespace Broadcast

variable {R S O M S' O' M' : Type} [DecidableEq R]

/-- A view of `P` as `Q`. -/
structure View (P : Obj R S O M) (Q : Obj R S' O' M') where
  st : R → S → S'
  msg : M → Option M'
  inv : R → S → Prop := fun _ _ => True
  okOp : R → S → O → Prop := fun _ _ _ => True
  okMsg : M → Prop := fun _ => True
  init : ∀ r, st r (P.init r) = Q.init r
  inv_init : ∀ r, inv r (P.init r) := by simp
  inv_prepare : ∀ {r s o s₁ m}, inv r s → okOp r s o → P.prepare r s o = (s₁, m) →
    inv r s₁ ∧ ∀ m' ∈ m, okMsg m' := by simp
  inv_effect : ∀ {r s m}, inv r s → okMsg m → inv r (P.effect r s m) := by simp
  reject : ∀ {r s o s₁}, inv r s → okOp r s o → P.prepare r s o = (s₁, none) →
    st r s₁ = st r s ∨ ∃ o', Q.prepare r (st r s) o' = (st r s₁, none)
  hide : ∀ {r s o s₁ m}, inv r s → okOp r s o → P.prepare r s o = (s₁, some m) → msg m = none →
    st r s₁ = st r s
  accept : ∀ {r s o s₁ m m'}, inv r s → okOp r s o → P.prepare r s o = (s₁, some m) →
    msg m = some m' → ∃ o', Q.prepare r (st r s) o' = (st r s₁, some m')
  effect_hide : ∀ {r s m}, inv r s → okMsg m → msg m = none → st r (P.effect r s m) = st r s
  effect : ∀ {r s m m'}, inv r s → okMsg m → msg m = some m' →
    st r (P.effect r s m) = Q.effect r (st r s) m'

namespace View

variable {P : Obj R S O M} {Q : Obj R S' O' M'} (v : View P Q)

/-- What the view shows of an entry of the log. -/
def entry (x : R × M) : Option (R × M') := (v.msg x.2).map (x.1, ·)

/-- Broadcast `i` is shown. -/
def shown (s : Sys R S M) (i : ℕ) : Bool := ((s.log i).bind v.entry).isSome

/-- What the view shows of a system. -/
def sys (s : Sys R S M) : Sys R S' M' where
  st r := v.st r (s.st r)
  log i := (s.log i).bind v.entry
  sent r := (s.sent r).filter (v.shown s)
  recv r := (s.recv r).filter (v.shown s ·)

/-- What the view shows of the record of a run. -/
def past (s : Sys R S M) (past : ℕ → Finset ℕ) (j : ℕ) : Finset ℕ :=
  if v.shown s j then (past j).filter (v.shown s ·) else ∅

section

omit [DecidableEq R]

theorem sys_log {s : Sys R S M} {i : ℕ} {o : R} {m : M} {m' : M'} (h : s.log i = some (o, m))
    (hm : v.msg m = some m') : (v.sys s).log i = some (o, m') := by
  simp [sys, h, entry, hm]

theorem sys_log_some {s : Sys R S M} {i : ℕ} {o : R} {m' : M'}
    (h : (v.sys s).log i = some (o, m')) : ∃ m, s.log i = some (o, m) ∧ v.msg m = some m' := by
  simp only [sys, entry, Option.bind_eq_some_iff, Option.map_eq_some_iff, Prod.mk.injEq] at h
  obtain ⟨⟨o', m⟩, hl, m'', hm, rfl, rfl⟩ := h
  exact ⟨m, hl, hm⟩

theorem mem_sys_recv {s : Sys R S M} {r : R} {i : ℕ} :
    i ∈ (v.sys s).recv r ↔ i ∈ s.recv r ∧ v.shown s i := by
  simp [sys]

theorem sys_recv_congr {s : Sys R S M} {q r : R} (h : s.recv q = s.recv r) :
    (v.sys s).recv q = (v.sys s).recv r := by
  simp only [sys, h]

theorem shown_iff {s : Sys R S M} {i : ℕ} {o : R} {m : M} (h : s.log i = some (o, m)) :
    v.shown s i = (v.msg m).isSome := by
  simp [shown, h, entry]

/-- What happened before a broadcast that is shown, among those that are shown. -/
theorem before_past (s : Sys R S M) (past : ℕ → Finset ℕ) :
    Before (v.sys s) (v.past s past) = Before (v.sys s) past := by
  have hedge : ∀ i j, (i ∈ v.past s past j ∧ v.shown s i ∧ v.shown s j) ↔
      (i ∈ past j ∧ v.shown s i ∧ v.shown s j) := by
    intro i j
    refine and_congr_left fun hij => ?_
    simp [View.past, hij.1, hij.2]
  exact congrArg Relation.TransGen (funext₂ fun i j => propext (hedge i j))

end

variable {s : Sys R S M} {r : R} {i : ℕ} {s₁ : S} {m : M}

theorem sys_reject : v.sys (Obj.reject s r s₁) = Obj.reject (v.sys s) r (v.st r s₁) := by
  apply Sys.ext
  · funext q
    by_cases hq : q = r
    · subst hq; simp [sys]
    · simp [sys, Obj.reject_st_ne hq]
  all_goals rfl

theorem sys_reject_hide (h : v.st r s₁ = v.st r (s.st r)) :
    v.sys (Obj.reject s r s₁) = v.sys s := by
  rw [sys_reject, h]
  apply Sys.ext
  · exact Function.update_eq_self r (v.sys s).st
  all_goals rfl

/-- A broadcast that was in the log is shown after an accepted command if it was before. -/
theorem shown_issue {j : ℕ} {x : R × M} (hi : s.log i = none) (hj : s.log j = some x) :
    v.shown (P.issue s r i s₁ m) j = v.shown s j := by
  simp [shown, Obj.issue_log_of_some hi hj, hj]

/-- What the view shows of the log, the sent and the received broadcasts after an accepted
command: `i` is new, and it is shown if its message is. -/
theorem sys_issue_log (hi : s.log i = none) :
    (v.sys (P.issue s r i s₁ m)).log =
      Function.update (v.sys s).log i ((v.msg m).map (r, ·)) := by
  funext j
  by_cases hj : j = i
  · subst hj; simp [sys, entry]
  · simp [sys, Obj.issue_log_ne hj, hj]

theorem sys_issue_recv (hw : Obj.Wf s) (hi : s.log i = none) :
    (v.sys (P.issue s r i s₁ m)).recv =
      Function.update (v.sys s).recv r
        (if (v.msg m).isSome then insert i ((v.sys s).recv r) else (v.sys s).recv r) := by
  have hold : ∀ q, ∀ j ∈ s.recv q, v.shown (P.issue s r i s₁ m) j = v.shown s j := by
    intro q j hj
    obtain ⟨o, m', hl⟩ := hw.log q j hj
    exact v.shown_issue hi hl
  have hnew : v.shown (P.issue s r i s₁ m) i = (v.msg m).isSome := v.shown_iff Obj.issue_log_self
  funext q
  by_cases hq : q = r
  · subst hq
    simp only [sys, Obj.issue_recv_self, Function.update_self, Finset.filter_insert, hnew,
      Finset.filter_congr (fun j hj => by rw [hold q j hj] :
        ∀ j ∈ s.recv q, v.shown (P.issue s q i s₁ m) j = true ↔ v.shown s j = true)]
  · simp only [sys, Obj.issue_recv_ne hq, Function.update_of_ne hq]
    exact Finset.filter_congr fun j hj => by rw [hold q j hj]

theorem sys_issue_sent (hw : Obj.Wf s) (hi : s.log i = none) :
    (v.sys (P.issue s r i s₁ m)).sent =
      Function.update (v.sys s).sent r
        ((v.sys s).sent r ++ if (v.msg m).isSome then [i] else []) := by
  have hold : ∀ q, ∀ j ∈ s.sent q, v.shown (P.issue s r i s₁ m) j = v.shown s j := by
    intro q j hj
    obtain ⟨m', hl⟩ := hw.sent q j hj
    exact v.shown_issue hi hl
  have hnew : v.shown (P.issue s r i s₁ m) i = (v.msg m).isSome := v.shown_iff Obj.issue_log_self
  funext q
  by_cases hq : q = r
  · subst hq
    simp only [sys, Obj.issue_sent_self, Function.update_self, List.filter_append,
      List.filter_congr (hold q), List.filter_singleton, hnew]
    cases v.msg m <;> rfl
  · simp only [sys, Obj.issue_sent_ne hq, Function.update_of_ne hq]
    exact List.filter_congr (hold q)

theorem sys_issue_st {x : S'} (h : v.st r (P.effect r s₁ m) = x) :
    (v.sys (P.issue s r i s₁ m)).st = Function.update (v.sys s).st r x := by
  funext q
  by_cases hq : q = r
  · subst hq; simpa [sys] using h
  · simp [sys, Obj.issue_st_ne hq, hq]

/-- An accepted command whose message is hidden changes nothing. -/
theorem sys_issue_hide (hw : Obj.Wf s) (hi : s.log i = none) (hm : v.msg m = none)
    (h : v.st r (P.effect r s₁ m) = v.st r (s.st r)) : v.sys (P.issue s r i s₁ m) = v.sys s := by
  have hl : (v.sys s).log i = none := by simp [sys, hi]
  apply Sys.ext
  · rw [v.sys_issue_st h]; exact Function.update_eq_self r (v.sys s).st
  · rw [v.sys_issue_log hi, hm, Option.map_none, ← hl, Function.update_eq_self]
  · rw [v.sys_issue_sent hw hi, hm]; simp
  · rw [v.sys_issue_recv hw hi, hm]; simp

/-- An accepted command whose message is shown is an accepted command of `Q`. -/
theorem sys_issue {m' : M'} (hw : Obj.Wf s) (hi : s.log i = none) (hm : v.msg m = some m')
    (h : v.st r (P.effect r s₁ m) = Q.effect r (v.st r s₁) m') :
    v.sys (P.issue s r i s₁ m) = Q.issue (v.sys s) r i (v.st r s₁) m' := by
  apply Sys.ext
  · rw [v.sys_issue_st h]; rfl
  · rw [v.sys_issue_log hi, hm]; rfl
  · rw [v.sys_issue_sent hw hi, hm]; rfl
  · rw [v.sys_issue_recv hw hi, hm]; rfl

/-- The record after an accepted command: `i` is new, and it is shown if its message is. -/
theorem past_issue {past : ℕ → Finset ℕ} (hw : Obj.Wf s) (hp : Obj.PastWf s past)
    (hi : s.log i = none) :
    v.past (P.issue s r i s₁ m) (Function.update past i (s.recv r)) =
      Function.update (v.past s past) i
        (if (v.msg m).isSome then (v.sys s).recv r else ∅) := by
  have hshown : ∀ {j}, (s.log j).isSome → v.shown (P.issue s r i s₁ m) j = v.shown s j := by
    intro j hj
    obtain ⟨x, hx⟩ := Option.isSome_iff_exists.mp hj
    exact v.shown_issue hi hx
  funext j
  by_cases hj : j = i
  · subst hj
    have hrecv : ∀ k ∈ s.recv r, v.shown (P.issue s r j s₁ m) k = true ↔ v.shown s k = true := by
      intro k hk
      obtain ⟨o, m', hl⟩ := hw.log r k hk
      rw [hshown (by simp [hl])]
    simp only [View.past, v.shown_iff Obj.issue_log_self, Function.update_self, sys,
      Finset.filter_congr hrecv]
  · have hold : ∀ k ∈ past j, v.shown (P.issue s r i s₁ m) k = true ↔ v.shown s k = true :=
      fun k hk => by rw [hshown (hp.log j k hk)]
    have hj' : v.shown (P.issue s r i s₁ m) j = v.shown s j := by
      simp [shown, Obj.issue_log_ne hj]
    simp only [View.past, Function.update_of_ne hj, hj', Finset.filter_congr hold]

/-- A delivery of a hidden broadcast changes nothing. -/
theorem sys_deliver_hide {o : R} (hl : s.log i = some (o, m)) (hm : v.msg m = none)
    (h : v.st r (P.effect r (s.st r) m) = v.st r (s.st r)) :
    v.sys (P.deliver s r i m) = v.sys s := by
  have hst : ∀ q, v.st q ((P.deliver s r i m).st q) = v.st q (s.st q) := by
    intro q
    by_cases hq : q = r
    · subst hq; simpa using h
    · rw [Obj.deliver_st_ne hq]
  have hrecv : ∀ q, ((P.deliver s r i m).recv q).filter (v.shown s ·) =
      (s.recv q).filter (v.shown s ·) := by
    intro q
    by_cases hq : q = r
    · subst hq
      rw [Obj.deliver_recv_self, Finset.filter_insert, if_neg (by simp [v.shown_iff hl, hm])]
    · rw [Obj.deliver_recv_ne hq]
  have hsh : v.shown (P.deliver s r i m) = v.shown s := rfl
  simp only [sys, hst, hsh, hrecv, Obj.deliver_log, Obj.deliver_sent]

/-- A delivery of a broadcast that is shown is a delivery of `Q`. -/
theorem sys_deliver {o : R} {m' : M'} (hl : s.log i = some (o, m)) (hm : v.msg m = some m')
    (h : v.st r (P.effect r (s.st r) m) = Q.effect r (v.st r (s.st r)) m') :
    v.sys (P.deliver s r i m) = Q.deliver (v.sys s) r i m' := by
  apply Sys.ext
  · funext q
    by_cases hq : q = r
    · subst hq; simpa [sys] using h
    · simp [sys, Obj.deliver_st_ne hq]
  · rfl
  · rfl
  · funext q
    have hsh : v.shown (P.deliver s r i m) = v.shown s := rfl
    by_cases hq : q = r
    · subst hq
      simp only [sys, hsh, Obj.deliver_recv_self, Finset.filter_insert]
      rw [if_pos (by simp [v.shown_iff hl, hm])]
    · simp only [sys, hsh, Obj.deliver_recv_ne hq]

/-- The invariant of the states, and the messages that the view knows. -/
theorem reach_inv {G : Sys R S M → Ev R O → Prop}
    (hop : ∀ s r o i, G s (.op r o i) → v.okOp r (s.st r) o) (hs : P.Reach G s) :
    (∀ r, v.inv r (s.st r)) ∧ ∀ i o m, s.log i = some (o, m) → v.okMsg m := by
  refine hs.local_rule v.inv_init ?_ ?_
  · intro s r o i x₁ m _ ih hg hp
    obtain ⟨hinv, hok⟩ := v.inv_prepare ih (hop s r o i hg) hp
    exact ⟨hinv, fun m' hm' => ⟨hok m' hm', v.inv_effect hinv (hok m' hm')⟩⟩
  · intro s r i o m _ ih _ _ hm
    exact v.inv_effect ih hm

/-- **What a view shows of a run is a run**, with its record. The guard `G` of the runs of `P`
admits only commands with `okOp`; a delivery that it admits and that is shown satisfies `H`, and
`H` admits every command. -/
theorem hist {G : Sys R S M → Ev R O → Prop} {H : Sys R S' M' → Ev R O' → Prop}
    {past : ℕ → Finset ℕ}
    (hop : ∀ s r o i, G s (.op r o i) → v.okOp r (s.st r) o) (hop' : ∀ s r o i, H s (.op r o i))
    (hrecv : ∀ s r i m', P.Reach G s → G s (.recv r i) → (∃ o, (v.sys s).log i = some (o, m')) →
      H (v.sys s) (.recv r i))
    (hs : P.Hist G s past) :
    Q.Hist H (v.sys s) (v.past s past) ∧ (∀ r, v.inv r (s.st r)) ∧
      ∀ i o m, s.log i = some (o, m) → v.okMsg m := by
  refine ⟨?_, v.reach_inv hop hs.reach⟩
  have hstart : v.sys P.start = Q.start := by
    simp only [sys, Obj.start, v.init]
    rfl
  have hpast : v.past P.start (fun _ => ∅) = fun _ => ∅ := by
    funext j
    simp [View.past]
  refine hs.rule (I := fun s past => Q.Hist H (v.sys s) (v.past s past))
    (by rw [hstart, hpast]; exact .start) ?_ ?_ ?_
  · intro s past r o i s₁ hs hQ hg hp
    have hinv := (v.reach_inv hop hs.reach).1
    change Q.Hist H (v.sys (Obj.reject s r s₁)) (v.past s past)
    rcases v.reject (hinv r) (hop s r o i hg) hp with h | ⟨o', ho'⟩
    · rw [v.sys_reject_hide h]; exact hQ
    · rw [v.sys_reject]
      have hp' : Q.prepare r ((v.sys s).st r) o' = (v.st r s₁, none) := ho'
      have hstep : Q.step (v.sys s) (.op r o' i) =
          some (Obj.reject (v.sys s) r (v.st r s₁)) := by simp [Obj.step, hp']
      simpa only [Obj.addPast, hp'] using Obj.Hist.step _ hQ (hop' _ _ _ _) hstep
  · intro s past r o i s₁ m hs hQ hg hp hl
    have hinv := (v.reach_inv hop hs.reach).1
    have ho := hop s r o i hg
    obtain ⟨hinv₁, hokm⟩ := v.inv_prepare (hinv r) ho hp
    have hm := hokm m rfl
    have hw := hs.reach.wf
    have hl' : (v.sys s).log i = none := by simp [sys, hl]
    rw [v.past_issue hw hs.pastWf hl]
    cases hv : v.msg m with
    | none =>
      have hi : v.past s past i = ∅ := by simp [View.past, shown, hl]
      rw [v.sys_issue_hide hw hl hv
        ((v.effect_hide hinv₁ hm hv).trans (v.hide (hinv r) ho hp hv))]
      simpa [← hi] using hQ
    | some m' =>
      obtain ⟨o', ho'⟩ := v.accept (hinv r) ho hp hv
      rw [v.sys_issue hw hl hv (v.effect hinv₁ hm hv)]
      have hp' : Q.prepare r ((v.sys s).st r) o' = (v.st r s₁, some m') := ho'
      have hstep : Q.step (v.sys s) (.op r o' i) =
          some (Q.issue (v.sys s) r i (v.st r s₁) m') := by simp [Obj.step, hp', hl']
      rw [if_pos (Option.isSome_some)]
      simpa only [Obj.addPast, hp'] using Obj.Hist.step _ hQ (hop' _ _ _ _) hstep
  · intro s past r i o m hs hQ hg hl hi
    obtain ⟨hinv, hok⟩ := v.reach_inv hop hs.reach
    have hm := hok i o m hl
    change Q.Hist H (v.sys (P.deliver s r i m)) (v.past s past)
    cases hv : v.msg m with
    | none =>
      rw [v.sys_deliver_hide hl hv (v.effect_hide (hinv r) hm hv)]; exact hQ
    | some m' =>
      have hl' : (v.sys s).log i = some (o, m') := v.sys_log hl hv
      have hi' : i ∉ (v.sys s).recv r := fun h => hi (v.mem_sys_recv.mp h).1
      rw [v.sys_deliver hl hv (v.effect (hinv r) hm hv)]
      exact Obj.Hist.step (.recv r i) hQ (hrecv s r i m' hs.reach hg ⟨o, hl'⟩)
        (by simp [Obj.step, hl', hi'])

/-- **What a view shows of a reachable state is reachable**, under the same conditions. -/
theorem reach {G : Sys R S M → Ev R O → Prop} {H : Sys R S' M' → Ev R O' → Prop}
    (hop : ∀ s r o i, G s (.op r o i) → v.okOp r (s.st r) o) (hop' : ∀ s r o i, H s (.op r o i))
    (hrecv : ∀ s r i m', P.Reach G s → G s (.recv r i) → (∃ o, (v.sys s).log i = some (o, m')) →
      H (v.sys s) (.recv r i))
    (hs : P.Reach G s) :
    Q.Reach H (v.sys s) ∧ (∀ r, v.inv r (s.st r)) ∧
      ∀ i o m, s.log i = some (o, m) → v.okMsg m := by
  obtain ⟨past, hp⟩ := hs.hist
  obtain ⟨hQ, hinv, hok⟩ := v.hist hop hop' hrecv hp
  exact ⟨hQ.reach, hinv, hok⟩

/-- `View.reach` for runs with every order of delivery. -/
theorem reach_any (h : ∀ r s o, v.okOp r s o) (hs : P.Reach anyOrder s) :
    Q.Reach anyOrder (v.sys s) :=
  (v.reach (H := anyOrder) (fun s r o _ _ => h r (s.st r) o) (fun _ _ _ _ => trivial)
    (fun _ _ _ _ _ _ _ => trivial) hs).1

/-- `View.hist` for runs with every order of delivery. -/
theorem hist_any {past : ℕ → Finset ℕ} (h : ∀ r s o, v.okOp r s o)
    (hs : P.Hist anyOrder s past) : Q.Hist anyOrder (v.sys s) (v.past s past) :=
  (v.hist (H := anyOrder) (fun s r o _ _ => h r (s.st r) o) (fun _ _ _ _ => trivial)
    (fun _ _ _ _ _ _ _ => trivial) hs).1

end View

/-! ## Views that show every message as it is -/

section Total

variable {P : Obj R S O M} {Q : Obj R S' O' M} {v : View P Q} {s : Sys R S M}

omit [DecidableEq R] in
/-- Such a view changes the states and nothing else. -/
theorem View.sys_total (h : ∀ m, v.msg m = some m) (hw : Obj.Wf s) :
    v.sys s = ⟨fun r => v.st r (s.st r), s.log, s.sent, s.recv⟩ := by
  have hshown : ∀ {i o m}, s.log i = some (o, m) → v.shown s i := fun hl => by
    simp [v.shown_iff hl, h]
  refine Sys.ext rfl ?_ ?_ ?_
  · funext i
    cases hl : s.log i with
    | none => simp [View.sys, hl]
    | some x => simp [View.sys, hl, View.entry, h]
  · funext r
    refine List.filter_eq_self.mpr fun i hi => ?_
    obtain ⟨m, hl⟩ := hw.sent r i hi
    simpa using hshown hl
  · funext r
    refine Finset.filter_true_of_mem fun i hi => ?_
    obtain ⟨o, m, hl⟩ := hw.log r i hi
    exact hshown hl

end Total

/-! ## The messages that a replica applied -/

section Track

/-- The object with the list of the messages that each replica applied, newest first. -/
def Obj.track (P : Obj R S O M) : Obj R (S × List M) O M where
  init r := (P.init r, [])
  prepare r x o := (((P.prepare r x.1 o).1, x.2), (P.prepare r x.1 o).2)
  effect r x m := (P.effect r x.1 m, m :: x.2)

/-- A system whose replicas have the lists `h`. -/
def Sys.withHist (s : Sys R S M) (h : R → List M) : Sys R (S × List M) M :=
  ⟨fun r => (s.st r, h r), s.log, s.sent, s.recv⟩

omit [DecidableEq R] in
theorem Obj.track_prepare {P : Obj R S O M} {r : R} {x x₁ : S × List M} {o : O} {res : Option M} :
    P.track.prepare r x o = (x₁, res) ↔ P.prepare r x.1 o = (x₁.1, res) ∧ x₁.2 = x.2 := by
  obtain ⟨y, ms⟩ := x₁
  simp only [Obj.track, Prod.ext_iff]
  exact ⟨fun h => ⟨⟨h.1.1, h.2⟩, h.1.2.symm⟩, fun h => ⟨⟨h.1.1, h.2.symm⟩, h.1.2⟩⟩

/-- The object without the list. -/
def trackView (P : Obj R S O M) : View P.track P where
  st _ x := x.1
  msg := some
  init _ := rfl
  reject {r s o s₁} _ _ h := .inr ⟨o, (Obj.track_prepare.mp h).1⟩
  hide _ _ _ hm := by cases hm
  accept {r s o s₁ m m'} _ _ h hm := ⟨o, hm ▸ (Obj.track_prepare.mp h).1⟩
  effect_hide _ _ hm := by cases hm
  effect _ _ hm := by
    cases hm
    rfl

variable {P : Obj R S O M}

theorem Obj.Reach.untrack {s : Sys R (S × List M) M} (hs : P.track.Reach anyOrder s) :
    P.Reach anyOrder ⟨fun r => (s.st r).1, s.log, s.sent, s.recv⟩ := by
  have h := (trackView P).reach_any (fun _ _ _ => trivial) hs
  rwa [View.sys_total (fun _ => rfl) hs.wf] at h

theorem update_pair {A B : R → Type} (f : ∀ r, A r) (g : ∀ r, B r) (r : R) (a : A r) (b : B r) :
    (fun q => (Function.update f r a q, Function.update g r b q)) =
      Function.update (fun q => (f q, g q)) r (a, b) := by
  funext q
  by_cases hq : q = r
  · subst hq
    simp
  · simp [hq]

/-- The list has the messages that were received. -/
theorem Obj.Reach.mem_track {s : Sys R (S × List M) M} (hs : P.track.Reach anyOrder s) (r : R)
    (m : M) : m ∈ (s.st r).2 ↔ ∃ i ∈ s.recv r, s.msg i = some m := by
  obtain ⟨l, -, hmem, hfold⟩ := hs.fold (f := fun _ x => x.2) (g := fun _ ms m => m :: ms)
    (fun _ _ _ _ _ hp => (Obj.track_prepare.mp hp).2) (fun _ _ _ => rfl) r
  simp [hfold, Obj.track, hmem]

/-- Every run has such lists. -/
theorem Obj.Reach.track {s : Sys R S M} (hs : P.Reach anyOrder s) :
    ∃ h, P.track.Reach anyOrder (s.withHist h) := by
  refine hs.rule (I := fun s => ∃ h, P.track.Reach anyOrder (s.withHist h))
    ⟨fun _ => [], .start⟩ ?_ ?_ ?_
  · rintro s r o i s₁ - ⟨h, hr⟩ - hp
    have hp' : P.track.prepare r ((s.withHist h).st r) o = ((s₁, h r), none) :=
      Obj.track_prepare.mpr ⟨hp, rfl⟩
    refine ⟨h, .step (.op r o i) hr trivial ?_⟩
    simp only [Obj.step, hp', Option.some.injEq]
    have hst := update_pair s.st h r s₁ (h r)
    rw [Function.update_eq_self] at hst
    exact Sys.ext hst.symm rfl rfl rfl
  · rintro s r o i s₁ m - ⟨h, hr⟩ - hp hl
    have hp' : P.track.prepare r ((s.withHist h).st r) o = ((s₁, h r), some m) :=
      Obj.track_prepare.mpr ⟨hp, rfl⟩
    refine ⟨Function.update h r (m :: h r), .step (.op r o i) hr trivial ?_⟩
    have hl' : ((s.withHist h).log i).isNone = true := by simp [Sys.withHist, hl]
    simp only [Obj.step, hp', hl', if_true, Option.some.injEq]
    exact Sys.ext (update_pair s.st h r _ _).symm rfl rfl rfl
  · rintro s r i o m - ⟨h, hr⟩ - hl hi
    refine ⟨Function.update h r (m :: h r), .step (.recv r i) hr trivial ?_⟩
    have hl' : (s.withHist h).log i = some (o, m) := hl
    have hi' : i ∉ (s.withHist h).recv r := hi
    simp only [Obj.step, hl', if_neg hi', Option.some.injEq]
    exact Sys.ext (update_pair s.st h r _ _).symm rfl rfl rfl

end Track

/-! ## One object for each key -/

section Keyed

variable {K : Type} [DecidableEq K]

/-- One object for each key. -/
def Obj.keyed (P : K → Obj R S O M) : Obj R (K → S) (K × O) (K × M) where
  init r k := (P k).init r
  prepare r s c :=
    let p := (P c.1).prepare r (s c.1) c.2
    (Function.update s c.1 p.1, p.2.map (c.1, ·))
  effect r s c := Function.update s c.1 ((P c.1).effect r (s c.1) c.2)

/-- Key `k` of the product. -/
def keyedView (P : K → Obj R S O M) (k : K) : View (Obj.keyed P) (P k) where
  st _ s := s k
  msg c := if c.1 = k then some c.2 else none
  init _ := rfl
  reject {r s o s₁} _ _ h := by
    obtain ⟨k', o⟩ := o
    simp only [Obj.keyed, Prod.mk.injEq, Option.map_eq_none_iff] at h
    obtain ⟨rfl, hn⟩ := h
    by_cases hk : k' = k
    · subst hk
      exact .inr ⟨o, by simp [← hn]⟩
    · exact .inl (by simp [Ne.symm hk])
  hide {r s o s₁ m} _ _ h hm := by
    obtain ⟨k', o⟩ := o
    simp only [Obj.keyed, Prod.mk.injEq, Option.map_eq_some_iff] at h
    obtain ⟨rfl, m₁, -, rfl⟩ := h
    have hk : k' ≠ k := by simpa using hm
    simp [hk.symm]
  accept {r s o s₁ m m'} _ _ h hm := by
    obtain ⟨k', o⟩ := o
    simp only [Obj.keyed, Prod.mk.injEq, Option.map_eq_some_iff] at h
    obtain ⟨rfl, m₁, hp, rfl⟩ := h
    simp only [Option.ite_none_right_eq_some, Option.some.injEq] at hm
    obtain ⟨rfl, rfl⟩ := hm
    exact ⟨o, by simp [← hp]⟩
  effect_hide {r s m} _ _ hm := by
    have hk : m.1 ≠ k := by simpa using hm
    simp [Obj.keyed, hk.symm]
  effect {r s m m'} _ _ hm := by
    simp only [Option.ite_none_right_eq_some, Option.some.injEq] at hm
    obtain ⟨rfl, rfl⟩ := hm
    simp [Obj.keyed]

end Keyed

end Broadcast
