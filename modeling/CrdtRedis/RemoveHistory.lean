import CrdtRedis.RwfZset

/-!
# What a remove history says

A remove history is not a vector clock: only a remove advances it, an add or an update carries the
join of the histories that its origin has received, and a replica can learn of a remove from a
message that was sent after it. It orders the removes of an element all the same.

* `RemoveTimes`: what holds of the histories of all messages in every run, with the record of what
  came before each (`Obj.Hist`). An entry for replica `o` counts removes of `o`, and the last one
  that it counts is the message itself or happened before it (`RemoveTimes.origin`).
* `RemoveHistory`: the history of a remove is below that of a message iff the remove is the message
  or happened before it, and an applied add or update has the history `current` iff every remove
  that the replica knows of happened before it.
* `rwfz_remove_history`: the priority queue, and with it what an element shows: the adds and the
  increments that saw every known remove, and no others (`RwfzCounts`).
-/

namespace CrdtRedis

open Broadcast

variable {n : ℕ} {A U₀ U X S : Type}

/-- The message is a remove. -/
def RwfMsg.isRem : RwfMsg n A U → Bool
  | .rem _ => true
  | _ => false

theorem RwfMsg.isRem_iff {m : RwfMsg n A U} : m.isRem = true ↔ ∃ t, m = .rem t := by
  cases m <;> simp [RwfMsg.isRem]

/-- The removes that replica `o` issued, oldest first. -/
def rwfRemoves (T : Sys (Fin n) S (RwfMsg n A U)) (o : Fin n) : List ℕ :=
  (T.sent o).filter fun i => (T.msg i).any RwfMsg.isRem

/-- Replica `q` knows of the remove `x`: it applied it, or a message that it happened before. -/
def KnownRemove (T : Sys (Fin n) S (RwfMsg n A U)) (B : ℕ → ℕ → Prop) (q : Fin n) (x : ℕ) : Prop :=
  (∃ o t, T.log x = some (o, .rem t)) ∧ (x ∈ T.recv q ∨ ∃ y ∈ T.recv q, B x y)

/-- Every remove that replica `q` knows of happened before broadcast `i`. -/
def SawRemoves (T : Sys (Fin n) S (RwfMsg n A U)) (B : ℕ → ℕ → Prop) (q : Fin n) (i : ℕ) : Prop :=
  ∀ x, KnownRemove T B q x → B x i

/-- The remove histories of the messages on an element and the order `B` in which they happened. -/
structure RemoveHistory (T : Sys (Fin n) S (RwfMsg n A U)) (B : ℕ → ℕ → Prop) : Prop where
  kth : ∀ o k i, (rwfRemoves T o)[k]? = some i →
    ∃ t, T.log i = some (o, .rem t) ∧ t.vector o = k + 1
  le_iff : ∀ i o t, T.log i = some (o, .rem t) → ∀ j o' m, T.log j = some (o', m) →
    (t.vector ≤ m.t.vector ↔ i = j ∨ B i j)
  join_iff : ∀ q, ∀ i ∈ T.recv q, ∀ o m, T.log i = some (o, m) → m.isRem = false →
    (m.t.vector = rwfJoin T q ↔ SawRemoves T B q i)

/-! ## The histories of a run -/

/-- The histories of the messages of a run with the record `past`. -/
structure RemoveTimes (T : Sys (Fin n) S (RwfMsg n A U)) (past : ℕ → Finset ℕ) : Prop where
  /-- A message has seen the removes that its past has seen. -/
  seen : ∀ j, ∀ i ∈ past j, rwfTs T.msg i ≤ rwfTs T.msg j
  /-- An entry counts removes. -/
  bound : ∀ i o, rwfTs T.msg i o ≤ (rwfRemoves T o).length
  /-- A replica numbers its removes. -/
  number : ∀ o k i, (rwfRemoves T o)[k]? = some i → rwfTs T.msg i o = k + 1
  /-- The last remove that an entry counts. -/
  origin : ∀ i o, 0 < rwfTs T.msg i o → ∃ x ∈ rwfRemoves T o,
    rwfTs T.msg x o = rwfTs T.msg i o ∧ (x = i ∨ Before T past x i)

section Times

variable {T : Sys (Fin n) S (RwfMsg n A U)} {past : ℕ → Finset ℕ}

theorem rwfTs_of_log {i : ℕ} {o : Fin n} {m : RwfMsg n A U} (h : T.log i = some (o, m)) :
    rwfTs T.msg i = m.t.vector := by
  simp [rwfTs, Sys.msg, h]

theorem mem_rwfRemoves (hw : Obj.Wf T) (hp : Obj.PastWf T past) {o : Fin n} {i : ℕ} :
    i ∈ rwfRemoves T o ↔ ∃ t, T.log i = some (o, .rem t) := by
  simp only [rwfRemoves, List.mem_filter]
  constructor
  · rintro ⟨hi, hm⟩
    obtain ⟨m, hl⟩ := hw.sent o i hi
    simp only [Sys.msg, hl, Option.map_some, Option.any_some] at hm
    obtain ⟨t, rfl⟩ := RwfMsg.isRem_iff.mp hm
    exact ⟨t, hl⟩
  · rintro ⟨t, hl⟩
    exact ⟨hp.mem_sent i o _ hl, by simp [Sys.msg, hl, RwfMsg.isRem]⟩

/-- An entry of the joined history comes from a message. -/
theorem rwfJoin_origin {q o : Fin n} (h : 0 < rwfJoin T q o) :
    ∃ i ∈ T.recv q, rwfTs T.msg i o = rwfJoin T q o := by
  simp only [rwfJoin, Finset.sup_apply] at h ⊢
  have hne : (T.recv q).Nonempty := by
    by_contra hempty
    simp [Finset.not_nonempty_iff_eq_empty.mp hempty] at h
  obtain ⟨i, hi, heq⟩ := Finset.exists_mem_eq_sup _ hne fun i => rwfTs T.msg i o
  exact ⟨i, hi, heq.symm⟩

theorem rwfTs_le_rwfJoin {q : Fin n} {i : ℕ} (hi : i ∈ T.recv q) :
    rwfTs T.msg i ≤ rwfJoin T q := Finset.le_sup hi

theorem RemoveTimes.join_le (h : RemoveTimes T past) (q o : Fin n) :
    rwfJoin T q o ≤ (rwfRemoves T o).length := by
  by_cases hpos : 0 < rwfJoin T q o
  · obtain ⟨i, -, heq⟩ := rwfJoin_origin hpos
    exact heq ▸ h.bound i o
  · omega

/-- The last remove that an entry of the joined history counts. -/
theorem RemoveTimes.join_origin (h : RemoveTimes T past) {q o : Fin n} (hpos : 0 < rwfJoin T q o) :
    ∃ x ∈ rwfRemoves T o, rwfTs T.msg x o = rwfJoin T q o ∧
      (x ∈ T.recv q ∨ ∃ y ∈ T.recv q, Before T past x y) := by
  obtain ⟨y, hy, hyo⟩ := rwfJoin_origin hpos
  obtain ⟨x, hx, hxo, hxy⟩ := h.origin y o (hyo ▸ hpos)
  refine ⟨x, hx, hxo.trans hyo, ?_⟩
  rcases hxy with rfl | hxy
  · exact .inl hy
  · exact .inr ⟨y, hy, hxy⟩

/-- A replica knows how many removes it has issued. -/
theorem RemoveTimes.join_self (h : RemoveTimes T past) (hw : Obj.Wf T) (hp : Obj.PastWf T past)
    (o : Fin n) : rwfJoin T o o = (rwfRemoves T o).length := by
  refine le_antisymm (h.join_le o o) ?_
  cases hk : (rwfRemoves T o).length with
  | zero => exact Nat.zero_le _
  | succ k =>
    -- The last one has the greatest number, and `o` has received it.
    have hlt : k < (rwfRemoves T o).length := by omega
    have hnum := h.number o k _ (List.getElem?_eq_getElem hlt)
    obtain ⟨t, hl⟩ := (mem_rwfRemoves hw hp).mp (List.getElem_mem hlt)
    exact hnum ▸ rwfTs_le_rwfJoin (hw.own _ o _ hl) o

end Times

variable {F : Payload n A U₀ U X}
  {G : Sys (Fin n) (RwfEle n X) (RwfMsg n A U) → Ev (Fin n) (RwfOp A U₀) → Prop}
  {s : Sys (Fin n) (RwfEle n X) (RwfMsg n A U)} {past : ℕ → Finset ℕ}

/-- The history of a new message: the joined one, with one more remove of the origin if the message
is a remove. -/
theorem rwf_issue_t {r q : Fin n} {o : RwfOp A U₀} {s₁ : RwfEle n X} {m : RwfMsg n A U}
    (hs : (rwfObj F).Reach G s) (hp : (rwfObj F).prepare r (s.st r) o = (s₁, some m)) :
    m.t.vector q = rwfJoin s r q + if m.isRem ∧ q = r then 1 else 0 := by
  have hE := rwfObj_epoch hs r
  have hcur : (s.st r).header.current.vector = rwfJoin s r := hE.current
  rcases rwfPrepare_some (Prod.mk.inj hp).2 with ⟨a, rfl, -⟩ | ⟨u, rfl, -⟩ | ⟨rfl, -⟩
  · simp [RwfMsg.t, RwfMsg.isRem, hcur]
  · simp [RwfMsg.t, RwfMsg.isRem, hcur]
  · by_cases hq : q = r
    · subst hq
      have hnow := vcNow_self (s.st q).header.current
      rw [hE.id, hcur] at hnow
      simpa [RwfMsg.t, RwfMsg.isRem] using hnow
    · have hnow := vcNow_ne (s.st r).header.current (i := q) (by rwa [hE.id])
      rw [hcur] at hnow
      simpa [RwfMsg.t, RwfMsg.isRem, hq] using hnow

section Issue

variable {r : Fin n} {i : ℕ} {s₁ : RwfEle n X} {m : RwfMsg n A U}

theorem rwfTs_issue_self : rwfTs ((rwfObj F).issue s r i s₁ m).msg i = m.t.vector :=
  rwfTs_of_log Obj.issue_log_self

theorem rwfTs_issue_ne {j : ℕ} (h : j ≠ i) :
    rwfTs ((rwfObj F).issue s r i s₁ m).msg j = rwfTs s.msg j := by
  simp [rwfTs, Sys.msg, Obj.issue_log_ne h]

theorem rwfRemoves_issue (hw : Obj.Wf s) (hl : s.log i = none) (q : Fin n) :
    rwfRemoves ((rwfObj F).issue s r i s₁ m) q =
      rwfRemoves s q ++ if m.isRem ∧ q = r then [i] else [] := by
  have hold : ∀ q, ∀ j ∈ s.sent q, (((rwfObj F).issue s r i s₁ m).msg j).any RwfMsg.isRem =
      (s.msg j).any RwfMsg.isRem := by
    intro q j hj
    obtain ⟨m', hl'⟩ := hw.sent q j hj
    simp [Sys.msg, Obj.issue_log_of_some hl hl', hl']
  have hnew : (((rwfObj F).issue s r i s₁ m).msg i).any RwfMsg.isRem = m.isRem := by
    simp [Sys.msg]
  by_cases hq : q = r
  · subst hq
    simp only [rwfRemoves, Obj.issue_sent_self, List.filter_append, List.filter_congr (hold q),
      List.filter_singleton, hnew, and_true]
    cases m.isRem <;> rfl
  · simp only [rwfRemoves, Obj.issue_sent_ne hq, List.filter_congr (hold q), hq, and_false,
      if_false, List.append_nil]

theorem rwfTs_issue_recv (hw : Obj.Wf s) (hl : s.log i = none) {q : Fin n} {j : ℕ}
    (hj : j ∈ s.recv q) : rwfTs ((rwfObj F).issue s r i s₁ m).msg j = rwfTs s.msg j := by
  simp [rwfTs, Sys.msg, hw.issue_log_recv hl hj]

theorem rwfTs_issue_removes (hw : Obj.Wf s) (hpast : Obj.PastWf s past) (hl : s.log i = none)
    {q : Fin n} {j : ℕ} (hj : j ∈ rwfRemoves s q) :
    rwfTs ((rwfObj F).issue s r i s₁ m).msg j = rwfTs s.msg j := by
  obtain ⟨t, hj'⟩ := (mem_rwfRemoves hw hpast).mp hj
  exact rwfTs_issue_recv hw hl (hw.own j q _ hj')

/-- The removes keep their numbers, and a new one gets the next. -/
theorem RemoveTimes.number_issue (h : RemoveTimes s past) (hw : Obj.Wf s)
    (hpast : Obj.PastWf s past) (hl : s.log i = none)
    (ht : ∀ q, m.t.vector q = rwfJoin s r q + if m.isRem ∧ q = r then 1 else 0) {q : Fin n}
    {k j : ℕ} (hj : (rwfRemoves ((rwfObj F).issue s r i s₁ m) q)[k]? = some j) :
    rwfTs ((rwfObj F).issue s r i s₁ m).msg j q = k + 1 := by
  rw [rwfRemoves_issue hw hl] at hj
  rcases lt_or_ge k (rwfRemoves s q).length with hk | hk
  · rw [List.getElem?_append_left hk] at hj
    rw [rwfTs_issue_removes hw hpast hl (List.mem_of_getElem? hj)]
    exact h.number q k j hj
  · rw [List.getElem?_append_right hk] at hj
    split at hj
    · rename_i hrem
      obtain ⟨hk', rfl⟩ : k - (rwfRemoves s q).length = 0 ∧ i = j := by
        simpa [List.getElem?_singleton] using hj
      obtain rfl := hrem.2
      rw [rwfTs_issue_self, ht q, if_pos hrem, h.join_self hw hpast q]
      omega
    · simp at hj

/-- The last remove that an entry of a new message counts: the message, or one before it. -/
theorem RemoveTimes.origin_issue (h : RemoveTimes s past) (hw : Obj.Wf s)
    (hpast : Obj.PastWf s past) (hl : s.log i = none)
    (ht : ∀ q, m.t.vector q = rwfJoin s r q + if m.isRem ∧ q = r then 1 else 0) {q : Fin n}
    (hpos : 0 < m.t.vector q) :
    ∃ x ∈ rwfRemoves ((rwfObj F).issue s r i s₁ m) q,
      rwfTs ((rwfObj F).issue s r i s₁ m).msg x q = m.t.vector q ∧
        (x = i ∨ Before ((rwfObj F).issue s r i s₁ m) (Function.update past i (s.recv r)) x i) := by
  rw [rwfRemoves_issue hw hl]
  by_cases hrem : m.isRem ∧ q = r
  · exact ⟨i, by simp [hrem], by rw [rwfTs_issue_self], .inl rfl⟩
  · -- The entry is that of a message that `r` has received.
    have htq : m.t.vector q = rwfJoin s r q := by simpa [hrem] using ht q
    rw [htq] at hpos ⊢
    obtain ⟨x, hx, hxq, hxr⟩ := h.join_origin hpos
    refine ⟨x, List.mem_append_left _ hx, ?_, .inr ?_⟩
    · rw [rwfTs_issue_removes hw hpast hl hx, hxq]
    · rcases hxr with hxr | ⟨y, hy, hxy⟩
      · exact Obj.before_issue hw hl hxr
      · exact (Obj.Before.issue hl hxy).trans (Obj.before_issue hw hl hy)

/-- **A new message keeps the histories in order.** -/
theorem RemoveTimes.issue {o : RwfOp A U₀} (h : RemoveTimes s past)
    (hs : (rwfObj F).Hist G s past)
    (hp : (rwfObj F).prepare r (s.st r) o = (s₁, some m)) (hl : s.log i = none) :
    RemoveTimes ((rwfObj F).issue s r i s₁ m) (Function.update past i (s.recv r)) := by
  have hw := hs.reach.wf
  have hpast := hs.pastWf
  have ht : ∀ q, m.t.vector q = rwfJoin s r q + if m.isRem ∧ q = r then 1 else 0 :=
    fun q => rwf_issue_t hs.reach hp
  refine ⟨fun j k hk => ?_, fun j q => ?_, fun q k j hj => h.number_issue hw hpast hl ht hj,
    fun j q hpos => ?_⟩
  · by_cases hj : j = i
    · subst hj
      rw [Function.update_self] at hk
      rw [rwfTs_issue_self, rwfTs_issue_recv hw hl hk]
      intro q
      rw [ht q]
      exact (rwfTs_le_rwfJoin hk q).trans (Nat.le_add_right _ _)
    · rw [Function.update_of_ne hj] at hk
      have hki : k ≠ i := by
        rintro rfl
        simpa [hl] using hpast.log j k hk
      rw [rwfTs_issue_ne hj, rwfTs_issue_ne hki]
      exact h.seen j k hk
  · by_cases hj : j = i
    · subst hj
      rw [rwfTs_issue_self, ht q, rwfRemoves_issue hw hl, List.length_append]
      have := h.join_le r q
      split <;> simpa using this
    · have hlen : (rwfRemoves s q).length ≤
          (rwfRemoves ((rwfObj F).issue s r i s₁ m) q).length := by
        simp [rwfRemoves_issue hw hl]
      rw [rwfTs_issue_ne hj]
      exact (h.bound j q).trans hlen
  · by_cases hj : j = i
    · subst hj
      rw [rwfTs_issue_self] at hpos ⊢
      exact h.origin_issue hw hpast hl ht hpos
    · rw [rwfTs_issue_ne hj] at hpos ⊢
      obtain ⟨x, hx, hxq, hxj⟩ := h.origin j q hpos
      refine ⟨x, ?_, ?_, hxj.imp_right (Obj.Before.issue hl)⟩
      · rw [rwfRemoves_issue hw hl]
        exact List.mem_append_left _ hx
      · rw [rwfTs_issue_removes hw hpast hl hx, hxq]

end Issue

theorem rwfObj_removeTimes (hs : (rwfObj F).Hist G s past) : RemoveTimes s past := by
  refine hs.rule (I := RemoveTimes) ?_ ?_ ?_ ?_
  · have hts : ∀ i, rwfTs (rwfObj F).start.msg i = 0 := fun _ => rfl
    exact ⟨by simp, by simp [hts], by simp [rwfRemoves, Obj.start], by simp [hts]⟩
  · intro s past r o i s₁ _ h _ _
    exact ⟨h.seen, h.bound, h.number, h.origin⟩
  · intro s past r o i s₁ m hs h _ hp hl
    exact h.issue hs hp hl
  · intro s past r i o m _ h _ _ _
    exact ⟨h.seen, h.bound, h.number, h.origin⟩

/-! ## The order of the removes -/

section Order

variable {T : Sys (Fin n) S (RwfMsg n A U)}

/-- What happened before a message has a history below that of the message. -/
theorem RemoveTimes.le_of_before (h : RemoveTimes T past) {i j : ℕ} (hij : Before T past i j) :
    rwfTs T.msg i ≤ rwfTs T.msg j := by
  induction hij with
  | single hij => exact h.seen _ _ hij.1
  | tail _ hjk ih => exact ih.trans (h.seen _ _ hjk.1)

/-- Of two removes of one replica the one with the smaller number happened before the other. -/
theorem RemoveTimes.removes_le (h : RemoveTimes T past) (hw : Obj.Wf T) (hp : Obj.PastWf T past)
    {o : Fin n} {x y : ℕ} (hx : x ∈ rwfRemoves T o) (hy : y ∈ rwfRemoves T o)
    (hle : rwfTs T.msg x o ≤ rwfTs T.msg y o) : x = y ∨ Before T past x y := by
  obtain ⟨a, ha, rfl⟩ := List.getElem_of_mem hx
  obtain ⟨b, hb, rfl⟩ := List.getElem_of_mem hy
  rw [h.number o a _ (List.getElem?_eq_getElem ha),
    h.number o b _ (List.getElem?_eq_getElem hb)] at hle
  rcases Nat.eq_or_lt_of_le hle with heq | hlt
  · obtain rfl : a = b := by omega
    exact .inl rfl
  · have hsent : (rwfRemoves T o).Pairwise fun i j => i ∈ past j := (hp.sent o).filter _
    obtain ⟨t, hlx⟩ := (mem_rwfRemoves hw hp).mp hx
    obtain ⟨t', hly⟩ := (mem_rwfRemoves hw hp).mp hy
    exact .inr (.single ⟨List.pairwise_iff_getElem.mp hsent a b ha hb (by omega),
      by simp [hlx], by simp [hly]⟩)

theorem RemoveTimes.le_iff (h : RemoveTimes T past) (hw : Obj.Wf T) (hp : Obj.PastWf T past)
    {o : Fin n} {x j : ℕ} (hx : x ∈ rwfRemoves T o) :
    rwfTs T.msg x ≤ rwfTs T.msg j ↔ x = j ∨ Before T past x j := by
  refine ⟨fun hle => ?_, ?_⟩
  · have hpos : 0 < rwfTs T.msg x o := by
      obtain ⟨k, hk⟩ := List.mem_iff_getElem?.mp hx
      simp [h.number o k x hk]
    -- The last remove of `o` that `j` counts comes after `x`.
    obtain ⟨y, hy, hyo, hyj⟩ := h.origin j o (hpos.trans_le (hle o))
    rcases h.removes_le hw hp hx hy (hyo ▸ hle o) with rfl | hxy
    · exact hyj
    · rcases hyj with rfl | hyj
      · exact .inr hxy
      · exact .inr (hxy.trans hyj)
  · rintro (rfl | hxj)
    · exact le_rfl
    · exact h.le_of_before hxj

/-- **The remove histories order the removes of an element.** -/
theorem RemoveTimes.removeHistory (h : RemoveTimes T past) (hw : Obj.Wf T)
    (hp : Obj.PastWf T past) : RemoveHistory T (Before T past) where
  kth o k i hi := by
    obtain ⟨t, hl⟩ := (mem_rwfRemoves hw hp).mp (List.mem_of_getElem? hi)
    exact ⟨t, hl, rwfTs_of_log hl ▸ h.number o k i hi⟩
  le_iff i o t hl j o' m hj := by
    have := h.le_iff hw hp ((mem_rwfRemoves hw hp).mpr ⟨t, hl⟩) (j := j)
    rwa [rwfTs_of_log hl, rwfTs_of_log hj] at this
  join_iff q i hi o m hl hm := by
    have hts := rwfTs_of_log hl
    constructor
    · intro heq x hx
      obtain ⟨⟨o', t, hlx⟩, hx⟩ := hx
      have hle : rwfTs T.msg x ≤ rwfTs T.msg i := by
        rw [hts, heq]
        rcases hx with hx | ⟨y, hy, hxy⟩
        · exact rwfTs_le_rwfJoin hx
        · exact (h.le_of_before hxy).trans (rwfTs_le_rwfJoin hy)
      refine ((h.le_iff hw hp ((mem_rwfRemoves hw hp).mpr ⟨t, hlx⟩)).mp hle).resolve_left ?_
      rintro rfl
      obtain ⟨-, rfl⟩ : o' = o ∧ .rem t = m := by simpa [hlx] using hl
      simp [RwfMsg.isRem] at hm
    · intro hsaw
      refine le_antisymm (hts ▸ rwfTs_le_rwfJoin hi) fun o' => ?_
      by_cases hpos : 0 < rwfJoin T q o'
      · -- The last remove of `o'` that `q` knows of.
        obtain ⟨x, hx, hxo, hxq⟩ := h.join_origin hpos
        obtain ⟨t, hlx⟩ := (mem_rwfRemoves hw hp).mp hx
        have hle := h.le_of_before (hsaw x ⟨⟨o', t, hlx⟩, hxq⟩) o'
        rwa [hts, hxo] at hle
      · rw [Nat.eq_zero_of_not_pos hpos]
        exact Nat.zero_le _

end Order

/-! ## The priority queue -/

/-- Replica `q` applied broadcast `i`, the message `m` of `o`, and every remove that it knows of
happened before `i`. -/
def Counts (T : Sys (Fin n) S (RwfMsg n A U)) (B : ℕ → ℕ → Prop) (q : Fin n) (i : ℕ) (o : Fin n)
    (m : RwfMsg n A U) : Prop :=
  i ∈ T.recv q ∧ T.log i = some (o, m) ∧ SawRemoves T B q i

open Classical in
/-- What replica `q` shows of an element: the adds and the increments that count. -/
structure RwfzCounts (T : RwfzSys n) (B : ℕ → ℕ → Prop) (q : Fin n) (e : Rwfze n) : Prop where
  exists_iff : e.header.pid ≠ PID_NEXIST ↔ ∃ i o m, Counts T B q i o m ∧ m.isRem = false
  innate : ∀ i o v t, Counts T B q i o (.add v t) →
    (∀ j o' v' t', Counts T B q j o' (.add v' t') → o' ≤ o) → e.innate = v
  innate_zero : (∀ i o v t, ¬ Counts T B q i o (.add v t)) → e.innate = 0
  acquired : e.acquired = ∑ i ∈ T.recv q with SawRemoves T B q i,
    ((T.msg i).map RwfMsg.inc).getD 0

section Queue

variable {T : RwfzSys n} {B : ℕ → ℕ → Prop} {q : Fin n} {e : Rwfze n}

theorem addAt_iff_counts (h : RemoveHistory T B) (i : ℕ) (o : Fin n) (v : ℚ) :
    AddAt T q i o v ↔ ∃ t, Counts T B q i o (.add v t) := by
  constructor
  · rintro ⟨hi, t, hl, ht⟩
    exact ⟨t, hi, hl, (h.join_iff q i hi o _ hl rfl).mp ht⟩
  · rintro ⟨t, hi, hl, hsaw⟩
    exact ⟨hi, t, hl, (h.join_iff q i hi o _ hl rfl).mpr hsaw⟩

theorem updAt_iff_counts (h : RemoveHistory T B) (i : ℕ) (v : ℚ) :
    UpdAt T q i v ↔ ∃ o t, Counts T B q i o (.upd v t) := by
  constructor
  · rintro ⟨hi, o, t, hl, ht⟩
    exact ⟨o, t, hi, hl, (h.join_iff q i hi o _ hl rfl).mp ht⟩
  · rintro ⟨o, t, hi, hl, hsaw⟩
    exact ⟨hi, o, t, hl, (h.join_iff q i hi o _ hl rfl).mpr hsaw⟩

/-- The element exists iff an add or an update with the joined history was applied. -/
theorem RehClosed.exists_iff {T : Sys (Fin n) S (RwfMsg n A U)} {h : Reh n}
    (hc : RehClosed T q h) :
    h.pid ≠ PID_NEXIST ↔ (∃ i o a, AddAt T q i o a) ∨ ∃ i u, UpdAt T q i u := by
  by_cases hadd : ∃ i o a, AddAt T q i o a
  · obtain ⟨i, o, a, hw⟩ := exists_winAt hadd
    simp only [hc.add i o a hw, hadd, true_or, iff_true]
    exact (natCast_ne_special _).1
  · have hn : ∀ i o a, ¬ AddAt T q i o a := by simpa using hadd
    by_cases hupd : ∃ i u, UpdAt T q i u
    · simp [hc.wait hn hupd, hupd, PID_WAIT_INNATE, PID_NEXIST]
    · simp [hc.nexist hn hupd, hadd, hupd]

/-- The closed form of an element, by what happened before its messages. -/
theorem RwfzClosed.counts (hc : RwfzClosed T q e) (hw : Obj.Wf T) (h : RemoveHistory T B) :
    RwfzCounts T B q e where
  exists_iff := by
    rw [hc.header.exists_iff]
    simp only [addAt_iff_counts h, updAt_iff_counts h]
    constructor
    · rintro (⟨i, o, v, t, hi⟩ | ⟨i, v, o, t, hi⟩)
      · exact ⟨i, o, _, hi, rfl⟩
      · exact ⟨i, o, _, hi, rfl⟩
    · rintro ⟨i, o, m, hi, hm⟩
      cases m with
      | add v t => exact .inl ⟨i, o, v, t, hi⟩
      | upd v t => exact .inr ⟨i, v, o, t, hi⟩
      | rem t => cases hm
  innate i o v t hi hmax := by
    refine hc.innate i o v ⟨(addAt_iff_counts h i o v).mpr ⟨t, hi⟩, fun j o' v' hj => ?_⟩
    obtain ⟨t', hj⟩ := (addAt_iff_counts h j o' v').mp hj
    exact hmax j o' v' t' hj
  innate_zero hn := by
    refine hc.innate_zero fun i o v hi => ?_
    obtain ⟨t, hi⟩ := (addAt_iff_counts h i o v).mp hi
    exact hn i o v t hi
  acquired := by
    classical
    rw [hc.acquired, Finset.sum_filter, Finset.sum_filter]
    refine Finset.sum_congr rfl fun i hi => ?_
    obtain ⟨o, m, hl⟩ := hw.log q i hi
    by_cases hm : m.isRem
    · -- A remove increments nothing, whether it saw the others or not.
      obtain ⟨t, rfl⟩ := RwfMsg.isRem_iff.mp hm
      simp [Sys.msg, hl, RwfMsg.inc]
    · have hiff := h.join_iff q i hi o m hl (by simpa using hm)
      rw [← rwfTs_of_log hl] at hiff
      exact if_congr hiff rfl rfl

end Queue

/-- The remove histories of one element of the queue. -/
theorem rwfzEle_removeHistory {T : RwfzSys n} {past : ℕ → Finset ℕ}
    (hs : (rwfzEleObj n).Hist anyOrder T past) : RemoveHistory T (Before T past) := by
  have hT := (rwfzView n).hist_any (fun _ _ _ => trivial) hs
  have h := (rwfObj_removeTimes hT).removeHistory hT.reach.wf hT.pastWf
  have hsys : (rwfzView n).sys T = ⟨fun r => ((T.st r).get r).toRwf, T.log, T.sent, T.recv⟩ :=
    View.sys_total (fun _ => rfl) hs.reach.wf
  rw [View.before_past, hsys] at h
  exact ⟨h.kth, h.le_iff, h.join_iff⟩

/-- **Remove histories capture what happened before, element by element**: in every run of the
queue, with every order of delivery,

* the `j`-th remove of an element by `o`, counted from `0`, carries `j + 1` at index `o`;
* the history of a remove is below that of a message on the element iff the remove is the message or
  happened before it;
* an applied add or increment has the history `current` iff every remove that the replica knows of
  happened before it, and these are the ones that the element shows. -/
theorem rwfz_remove_history {s : Sys (Fin n) (Sds → RwfzCell n) (Sds × RwfzMsg n)}
    {past : ℕ → Finset ℕ} (hs : (rwfzObj n).Hist anyOrder s past) (k : Sds) :
    let T := rwfzOn s k
    let B := Before T past
    (∀ o j i, (rwfRemoves T o)[j]? = some i →
      ∃ t, T.log i = some (o, .rem t) ∧ t.vector o = j + 1) ∧
    (∀ i o t, T.log i = some (o, .rem t) → ∀ j o' m, T.log j = some (o', m) →
      (t.vector ≤ m.t.vector ↔ i = j ∨ B i j)) ∧
    ∀ q, let e := (s.st q k).get q
      (∀ i ∈ T.recv q, ∀ o m, T.log i = some (o, m) → m.isRem = false →
        (m.t.vector = e.header.current.vector ↔ SawRemoves T B q i)) ∧
      RwfzCounts T B q e := by
  intro T B
  have hT := (keyedView (fun _ => rwfzEleObj n) k).hist_any (fun _ _ _ => trivial) hs
  have h : RemoveHistory T B := by
    have := rwfzEle_removeHistory hT
    rwa [View.before_past] at this
  refine ⟨h.kth, h.le_iff, fun q => ?_⟩
  have hc : RwfzClosed T q ((s.st q k).get q) := rwfzEle_closed hT.reach q
  refine ⟨fun i hi o m hl hm => ?_, hc.counts hT.reach.wf h⟩
  rw [hc.header.current]
  exact h.join_iff q i hi o m hl hm

/-- Replica 0 adds an element, removes it and adds it again; replica 1 increments the first one, and
replica 2 receives the second add, which happened after the remove, and then the increment. -/
def rwfzKnown : List (Ev (Fin 3) (Sds × ZCmd)) :=
  let a : Sds := ['a']
  [.op 0 (a, .zadd 4 (some 5)) 0, .recv 1 0, .op 0 (a, .zrem 3) 1, .op 0 (a, .zadd 4 (some 7)) 2,
    .op 1 (a, .zincrby 4 (some 3)) 3, .recv 2 2, .recv 2 3]

/-- Replica 2 has not received the remove but knows of it: the second add counts and the increment
does not. -/
theorem rwfz_remove_history_demo :
    let s := (rwfzObj 3).runOf rwfzKnown
    let T := rwfzOn s ['a']
    let B := Before T ((rwfzObj 3).pastOf rwfzKnown)
    1 ∉ T.recv 2 ∧ B 1 2 ∧ ¬ B 1 3 ∧ SawRemoves T B 2 2 ∧ ¬ SawRemoves T B 2 3 := by
  intro s T B
  obtain ⟨hkth, hle, hq⟩ := rwfz_remove_history (Obj.hist_runOf (g := fun _ _ => true)
    (fun _ _ _ => trivial) rwfzKnown (by decide)) ['a']
  obtain ⟨t, hrem, -⟩ := hkth 0 0 1 (by decide)
  have hmsg : ∀ i : Fin 3, (T.log (i + 1)).map (fun x => (x.2.isRem, x.2.t.vector)) =
      some (![true, false, false] i, ![![1, 0, 0], ![1, 0, 0], ![0, 0, 0]] i) := by decide
  have hcur : ((s.st 2 ['a']).get 2).header.current.vector = ![1, 0, 0] := by decide
  obtain ⟨⟨o₁, m₁⟩, hl₁, hm₁⟩ := Option.map_eq_some_iff.mp (hmsg 0)
  obtain ⟨⟨o₂, m₂⟩, hl₂, hm₂⟩ := Option.map_eq_some_iff.mp (hmsg 1)
  obtain ⟨⟨o₃, m₃⟩, hl₃, hm₃⟩ := Option.map_eq_some_iff.mp (hmsg 2)
  obtain ⟨-, hv₁⟩ := Prod.mk.inj hm₁
  obtain ⟨hr₂, hv₂⟩ := Prod.mk.inj hm₂
  obtain ⟨hr₃, hv₃⟩ := Prod.mk.inj hm₃
  obtain ⟨rfl, rfl⟩ := Prod.mk.inj (Option.some.inj (hrem.symm.trans hl₁))
  refine ⟨by decide, ?_, ?_, ?_, ?_⟩
  · exact ((hle 1 0 t hrem 2 o₂ m₂ hl₂).mp (hv₁.trans hv₂.symm).le).resolve_left (by decide)
  · intro hb
    have h : (RwfMsg.rem t : RwfzMsg 3).t.vector 0 ≤ m₃.t.vector 0 :=
      (hle 1 0 t hrem 3 o₃ m₃ hl₃).mpr (.inr hb) 0
    rw [hv₁, hv₃] at h
    exact absurd h (by decide)
  · exact ((hq 2).1 2 (by decide) o₂ m₂ hl₂ hr₂).mp (hv₂.trans hcur.symm)
  · intro hsaw
    have h := ((hq 2).1 3 (by decide) o₃ m₃ hl₃ hr₃).mpr hsaw
    exact absurd (hv₃.symm.trans (h.trans hcur)) (by decide)

end CrdtRedis
