import CrdtRedis.ListOrder
import CrdtRedis.RwfList.Convergence

/-!
# The order of the RWF list

Messages on the RWF list are applied in every order, so an element can get its place from a readd
that overtook the fresh insert. A readd has the identifier of the element, and names no other one.

* `rwflIns`: the inserts of a run, readds included.
* `RwflPlaces`: what holds of them and of the lists of the replicas. The fresh inserts of one
  replica have different identifiers because each one counts in the list's clock.
* `rwfl_places`: it holds in every run with unique fresh ids that are none of the words.
-/

namespace CrdtRedis

open Broadcast Ht

variable {n : ℕ}

def RwflMsg.ins : RwflMsg n → Option Ins
  | .insert prev id _ _ pos _ => some ⟨prev, id, pos⟩
  | _ => none

/-- An insert that is no readd. -/
def RwflMsg.isFresh (m : RwflMsg n) : Bool := m.ins.any fun i => !strEq i.prev readdWord

section

variable (junk : Fin n → Sds → Normal → BitVec 32)

/-- Runs in which a fresh insert names an element that has no fresh insert yet. -/
def rwflUnique (s : Sys (Fin n) (Option (RwfHt n)) (RwflMsg n)) : Ev (Fin n) LCmd → Prop
  | .op r o _ => ∀ m, ((rwflObj n junk).prepare r (s.st r) o).2 = some m → m.isFresh →
    ∀ q, ∀ j ∈ s.recv q, ∀ o' m', s.log j = some (o', m') → m'.isFresh → m'.id ≠ m.id
  | .recv _ _ => True

/-- Runs in which no fresh insert names `null` or `readd`. -/
def rwflNotWord (s : Sys (Fin n) (Option (RwfHt n)) (RwflMsg n)) : Ev (Fin n) LCmd → Prop
  | .op r o _ => ∀ m, ((rwflObj n junk).prepare r (s.st r) o).2 = some m → m.isFresh →
    strEq m.id nullWord = false ∧ strEq m.id readdWord = false
  | .recv _ _ => True

/-- Runs whose fresh inserts name new elements and find room for their identifiers, where no name is
one of the table's own, `null` or `readd`, and every order of delivery. -/
def rwflListGuard (s : Sys (Fin n) (Option (RwfHt n)) (RwflMsg n)) (e : Ev (Fin n) LCmd) : Prop :=
  rwflGuard junk s e ∧ rwflUnique junk s e ∧ rwflNotWord junk s e

end

/-- The inserts of a run. -/
def rwflIns (s : Sys (Fin n) (Option (RwfHt n)) (RwflMsg n)) (i : Ins) : Prop :=
  ∃ j o m, s.log j = some (o, m) ∧ m.ins = some i

/-- The fresh inserts of a run. -/
def rwflFresh (s : Sys (Fin n) (Option (RwfHt n)) (RwflMsg n)) (o : Fin n) (i : Ins) : Prop :=
  ∃ j m, s.log j = some (o, m) ∧ m.ins = some i ∧ strEq i.prev readdWord = false

section

variable {junk : Fin n → Sds → Normal → BitVec 32}
  {s : Sys (Fin n) (Option (RwfHt n)) (RwflMsg n)} {r : Fin n} {i : ℕ} {s₁ : Option (RwfHt n)}
  {m : RwflMsg n}

theorem rwflIns_issue (hl : s.log i = none) (x : Ins) :
    rwflIns ((rwflObj n junk).issue s r i s₁ m) x ↔ rwflIns s x ∨ m.ins = some x := by
  constructor
  · rintro ⟨j, o, m', hj, hx⟩
    rcases Obj.issue_log_cases hj with ⟨rfl, heq⟩ | ⟨-, hj⟩
    · cases heq
      exact .inr hx
    · exact .inl ⟨j, o, m', hj, hx⟩
  · rintro (⟨j, o, m', hj, hx⟩ | hx)
    · exact ⟨j, o, m', Obj.issue_log_of_some hl hj, hx⟩
    · exact ⟨i, r, m, Obj.issue_log_self, hx⟩

theorem rwflFresh_issue {o : Fin n} {x : Ins}
    (h : rwflFresh ((rwflObj n junk).issue s r i s₁ m) o x) :
    rwflFresh s o x ∨ (o = r ∧ m.ins = some x ∧ strEq x.prev readdWord = false) := by
  obtain ⟨j, m', hj, hx, hr⟩ := h
  rcases Obj.issue_log_cases hj with ⟨rfl, heq⟩ | ⟨-, hj⟩
  · cases heq
    exact .inr ⟨rfl, hx, hr⟩
  · exact .inl ⟨j, m', hj, hx, hr⟩

/-- A message on a list that is made by inserts. -/
theorem RwflStep.ofInserts {ht ht' : RwfHt n} {sent : Ins → Prop} (h : RwflStep ht ht' m)
    (hs : Sound ht) (ho : OfInserts sent ht) (hL : InsLog sent)
    (hm : ∀ x, m.ins = some x → sent x) : OfInserts sent ht' := by
  cases m with
  | insert prev id content args pos t =>
    cases hoid : (ht.node id).oid with
    | some o => exact ho.kept (h.place.1 (by simp [hoid]))
    | none =>
      have hid : (ht.node id).posId = none := by simpa [hoid] using (hs.oid id).symm
      exact ho.added (i := ⟨prev, id, pos⟩) hL (hm _ rfl) hid (h.place.2 hoid)
  | update id type value lt t => exact ho.kept h.place
  | rem id t => exact ho.kept h.place

end

/-! ## Places -/

/-- What holds of the inserts of a run and of the lists. -/
structure RwflPlaces (s : Sys (Fin n) (Option (RwfHt n)) (RwflMsg n)) : Prop where
  log : InsLog (rwflIns s)
  /-- No element has the name `readd`. -/
  readd : ∀ i, rwflIns s i → strEq i.id readdWord = false
  /-- An insert names an element that has been inserted, or none. -/
  named : ∀ i, rwflIns s i → strEq i.prev nullWord = true ∨ strEq i.prev readdWord = true ∨
    ∃ f, rwflIns s f ∧ f.id = i.prev
  /-- An element has a fresh insert. -/
  base : ∀ i, rwflIns s i → ∃ o f, rwflFresh s o f ∧ f.id = i.id
  /-- An identifier was made with the clock of the list where its insert was issued. -/
  made : ∀ o i, rwflFresh s o i → ∃ left right rand, ∃ c : Clock n,
    i.pos = constructLeid left right c rand ∧ c.id = o ∧
      ∀ ht, s.st o = some ht → ∑ q, c.vector q < ∑ q, ht.clock.vector q
  list : ∀ r ht, s.st r = some ht → OfInserts (rwflIns s) ht ∧ ht.clock.id = r

section Places

variable {junk : Fin n → Sds → Normal → BitVec 32}
  {s : Sys (Fin n) (Option (RwfHt n)) (RwflMsg n)} {r : Fin n}

/-- What holds of a new insert `x`. -/
structure NewIns (s : Sys (Fin n) (Option (RwfHt n)) (RwflMsg n)) (x : Ins) : Prop where
  log : InsLog fun i => rwflIns s i ∨ i = x
  readd : strEq x.id readdWord = false
  named : strEq x.prev nullWord = true ∨ strEq x.prev readdWord = true ∨
    ∃ f, rwflIns s f ∧ f.id = x.prev
  base : strEq x.prev readdWord = false ∨ ∃ f, rwflIns s f ∧ f.id = x.id

/-- An insert that is sent. -/
theorem RwflPlaces.newIns {ht ht' : RwfHt n} {present : Rwfle n → Bool} {prev prev' id : Sds}
    {pos : Leid} {rand : ℕ} (h : RwflPlaces s) (hst : s.st r = some ht) (hs : Sound ht)
    (hprev : PrevSent present ht prev prev')
    (hpos : PosSent present (vcInc · r) ht ht' (ht.node prev).posId (ht.rightOf prev) id rand prev'
      pos)
    (hnew : strEq prev' readdWord = false → (∀ o f, rwflFresh s o f → f.id ≠ id) ∧
      strEq id nullWord = false ∧ strEq id readdWord = false) :
    NewIns s ⟨prev', id, pos⟩ := by
  obtain ⟨hof, hcid⟩ := h.list r ht hst
  have hnamed : strEq prev' nullWord = true ∨ strEq prev' readdWord = true ∨
      ∃ f, rwflIns s f ∧ f.id = prev' := by
    rcases hprev with ⟨rfl, hsome, -⟩ | ⟨-, -, hw⟩
    · obtain ⟨y, hy⟩ := Option.isSome_iff_exists.mp hsome
      obtain ⟨f, hf, hid, -⟩ := hof.placed _ y hy
      exact .inr (.inr ⟨f, hf, hid⟩)
    · exact hw.imp_right .inl
  rcases hpos.sent with ⟨hoid, hre, -, rfl⟩ | ⟨hx, hre, -⟩
  · obtain ⟨huniq, hnull, hreadd⟩ := hnew hre
    have hnone : (ht.node id).posId = none := by simpa [hoid] using (hs.oid id).symm
    have hid : ∀ j, rwflIns s j → j.id ≠ id := fun j hj heq => by
      obtain ⟨o, f, hf, hfid⟩ := h.base j hj
      exact huniq o f hf (hfid.trans heq)
    refine ⟨h.log.fresh hid (fun j hj heq => ?_) (fun j hj hjp => ?_) ?_ (fun j hj heq => ?_) hnull
      (constructLeid_wf fun y hy => ?_), hreadd, hnamed, .inl hre⟩
    · -- The clock of this replica has counted its fresh inserts, and others have another id.
      obtain ⟨o, f, hf, hfid⟩ := h.base j hj
      obtain ⟨l, q, k, c, hc, hco, hsum⟩ := h.made o f hf
      have hfp : f.pos = j.pos := by
        obtain ⟨jf, m, hl, hi, -⟩ := hf
        exact h.log.once f j ⟨jf, o, m, hl, hi⟩ hj hfid
      obtain ⟨hid', hsum'⟩ := constructLeid_inj (hc.symm.trans (hfp.trans heq))
      obtain rfl : o = r := hco.symm.trans (hid'.trans hcid)
      exact absurd hsum' (hsum ht hst).ne
    · rcases hprev with ⟨rfl, hsome, -⟩ | ⟨-, -, hw⟩
      · obtain ⟨y, hy⟩ := Option.isSome_iff_exists.mp hsome
        obtain ⟨f, hf, hfid, rfl⟩ := hof.placed _ y hy
        rw [h.log.once j f hj hf (hjp.trans hfid.symm), hy]
        exact lt_constructLeid
      · rcases hw with hw | hw
        · rw [← show j.id = prev' from hjp, h.log.null j hj] at hw
          cases hw
        · rw [hre] at hw
          cases hw
    · rintro (rfl : prev' = id)
      rcases hprev with ⟨rfl, hsome, -⟩ | ⟨-, -, hw⟩
      · simp [hnone] at hsome
      · simp [hnull, hreadd] at hw
    · rcases h.named j hj with hw | hw | ⟨f, hf, hfid⟩
      · rw [show j.prev = id from heq, hnull] at hw
        cases hw
      · rw [show j.prev = id from heq, hreadd] at hw
        cases hw
      · exact hid f hf (hfid.trans heq)
    · obtain ⟨f, hf, -, rfl⟩ := hof.placed _ y hy
      exact h.log.wf f hf
  · obtain ⟨f, hf, hfid, rfl⟩ := hof.placed id _ hx
    refine ⟨h.log.again hf hfid rfl fun j hj heq => ?_, hfid ▸ h.readd f hf, hnamed,
      .inr ⟨f, hf, hfid⟩⟩
    rw [← show j.id = prev' from heq, h.readd j hj] at hre
    cases hre

/-- A message that is sent has no insert, or a new one. -/
theorem RwflPlaces.sent {ht ht' : RwfHt n} {o : LCmd} {m : RwflMsg n} (h : RwflPlaces s)
    (hst : s.st r = some ht) (hs : Sound ht) (hm : RwflSent r ht ht' o m)
    (huniq : m.isFresh → ∀ j q m', s.log j = some (q, m') → m'.isFresh → m'.id ≠ m.id)
    (hword : m.isFresh → strEq m.id nullWord = false ∧ strEq m.id readdWord = false) :
    (m.ins = none ∧ ht'.clock = ht.clock) ∨ ∃ x, m.ins = some x ∧ NewIns s x ∧
      (strEq x.prev readdWord = false → ht'.clock = vcInc ht.clock r ∧
        ∃ left right rand, x.pos = constructLeid left right ht.clock rand) ∧
      (strEq x.prev readdWord = true → ht'.clock = ht.clock) := by
  cases hm with
  | @insert argc prev prev' id content _ _ _ _ rand args pos hargs hprev hpos =>
    refine .inr ⟨⟨prev', id, pos⟩, rfl, h.newIns hst hs hprev hpos fun hre => ?_, fun hre => ?_,
      fun hre => ?_⟩
    · have hfresh : (RwflMsg.insert prev' id content args pos
          (ht.node id).body.header.current).isFresh := by simp [RwflMsg.isFresh, RwflMsg.ins, hre]
      refine ⟨fun o f hf => ?_, hword hfresh⟩
      obtain ⟨j, m', hl, hi, hr⟩ := hf
      have hid : m'.id = f.id := by cases m' <;> cases hi; rfl
      exact hid ▸ huniq hfresh j o m' hl (by simp [RwflMsg.isFresh, hi, hr])
    · obtain ⟨-, -, hc, hp⟩ := hpos.sent.resolve_right fun h => by
        rw [show strEq prev' readdWord = false from hre] at h
        exact absurd h.2.1 (by simp)
      exact ⟨hc, _, _, rand, hp⟩
    · obtain ⟨-, -, hc⟩ := hpos.sent.resolve_left fun h => by
        rw [show strEq prev' readdWord = true from hre] at h
        exact absurd h.2.1 (by simp)
      exact hc
  | update _ hc => exact .inl ⟨rfl, hc⟩
  | rem _ hc => exact .inl ⟨rfl, hc⟩

/-- The clock of the list where a command was issued has not gone back. -/
theorem RwflPlaces.sent_clock {ht ht' : RwfHt n} {o : LCmd} {m : RwflMsg n} (h : RwflPlaces s)
    (hst : s.st r = some ht) (hs : Sound ht) (hm : RwflSent r ht ht' o m)
    (huniq : m.isFresh → ∀ j q m', s.log j = some (q, m') → m'.isFresh → m'.id ≠ m.id)
    (hword : m.isFresh → strEq m.id nullWord = false ∧ strEq m.id readdWord = false) :
    ∑ q, ht.clock.vector q ≤ ∑ q, ht'.clock.vector q ∧ ht'.clock.id = r := by
  have hcid := (h.list r ht hst).2
  rcases h.sent hst hs hm huniq hword with ⟨-, hc⟩ | ⟨x, -, -, hc, hc'⟩
  · exact ⟨by rw [hc], hc ▸ hcid⟩
  · cases hre : strEq x.prev readdWord with
    | true => exact ⟨by rw [hc' hre], hc' hre ▸ hcid⟩
    | false => exact ⟨by rw [(hc hre).1, sum_vcInc]; omega, by rw [(hc hre).1]; rfl⟩

/-- A bound below the clock of a list stays below it when no clock goes back. -/
theorem lt_clock_step {s' : Sys (Fin n) (Option (RwfHt n)) (RwflMsg n)} {ht ht' : RwfHt n} {k : ℕ}
    {q : Fin n} (hst : s.st r = some ht) (hst' : s'.st r = some ht')
    (hne : ∀ q, q ≠ r → s'.st q = s.st q)
    (hle : ∑ q, ht.clock.vector q ≤ ∑ q, ht'.clock.vector q)
    (hk : ∀ ht₁, s.st q = some ht₁ → k < ∑ p, ht₁.clock.vector p) :
    ∀ ht₁, s'.st q = some ht₁ → k < ∑ p, ht₁.clock.vector p := by
  intro ht₁ hq
  by_cases hqr : q = r
  · subst hqr
    obtain rfl := Option.some.inj (hst'.symm.trans hq)
    exact (hk ht hst).trans_le hle
  · exact hk ht₁ (hne q hqr ▸ hq)

/-- A step that changes the list of one replica, but not its clock, and sends nothing. -/
theorem RwflPlaces.moved {s' : Sys (Fin n) (Option (RwfHt n)) (RwflMsg n)} {ht ht' : RwfHt n}
    (h : RwflPlaces s) (hlog : s'.log = s.log) (hst : s.st r = some ht) (hst' : s'.st r = some ht')
    (hne : ∀ q, q ≠ r → s'.st q = s.st q) (hc : ht'.clock = ht.clock)
    (hof : OfInserts (rwflIns s) ht → OfInserts (rwflIns s) ht') : RwflPlaces s' := by
  have hins : rwflIns s' = rwflIns s := by unfold rwflIns; rw [hlog]
  have hfresh : rwflFresh s' = rwflFresh s := by unfold rwflFresh; rw [hlog]
  refine ⟨hins ▸ h.log, hins ▸ h.readd, hins ▸ h.named, by rw [hins, hfresh]; exact h.base,
    fun q x hx => ?_, fun q ht₁ hq => ?_⟩
  · obtain ⟨left, right, rand, c, hpos, hid, hsum⟩ := h.made q x (hfresh ▸ hx)
    exact ⟨left, right, rand, c, hpos, hid, lt_clock_step hst hst' hne (by rw [hc]) hsum⟩
  · rw [hins]
    by_cases hqr : q = r
    · subst hqr
      obtain rfl := Option.some.inj (hst'.symm.trans hq)
      obtain ⟨h₁, h₂⟩ := h.list q ht hst
      exact ⟨hof h₁, hc ▸ h₂⟩
    · exact h.list q ht₁ (hne q hqr ▸ hq)

/-- Nothing was sent. -/
theorem RwflPlaces.start : RwflPlaces (rwflObj n junk).start := by
  have hno : ∀ i, ¬ rwflIns (rwflObj n junk).start i := by
    rintro i ⟨j, o, m, hj, -⟩
    cases hj
  refine ⟨⟨?_, ?_, ?_, ?_, ?_⟩, fun i hi => absurd hi (hno i), fun i hi => absurd hi (hno i),
    fun i hi => absurd hi (hno i), ?_, ?_⟩
  · exact fun i j hi => absurd hi (hno i)
  · exact fun i j hi => absurd hi (hno i)
  · exact fun i j hi => absurd hi (hno i)
  · exact fun i hi => absurd hi (hno i)
  · exact fun i hi => absurd hi (hno i)
  · rintro o i ⟨j, m, hj, -⟩
    cases hj
  · rintro r ht hst
    cases hst
    exact ⟨.new, rfl⟩

/-- **An accepted command**: what holds of the inserts holds of the new one. -/
theorem RwflPlaces.issue {i : ℕ} {o : LCmd} {m : RwflMsg n} {ht ht' ht₂ : RwfHt n}
    (h : RwflPlaces s) (hl : s.log i = none) (hst : s.st r = some ht) (hsd : Sound ht)
    (hsame : SameList ht ht') (hsent : RwflSent r ht ht' o m) (hstep : RwflStep ht' ht₂ m)
    (hst₂ : ((rwflObj n junk).issue s r i (some ht') m).st r = some ht₂)
    (huniq : m.isFresh → ∀ j q m', s.log j = some (q, m') → m'.isFresh → m'.id ≠ m.id)
    (hword : m.isFresh → strEq m.id nullWord = false ∧ strEq m.id readdWord = false) :
    RwflPlaces ((rwflObj n junk).issue s r i (some ht') m) := by
  have hins : ∀ x, rwflIns ((rwflObj n junk).issue s r i (some ht') m) x ↔
      rwflIns s x ∨ m.ins = some x := rwflIns_issue hl
  have hold : ∀ x, rwflIns s x → rwflIns ((rwflObj n junk).issue s r i (some ht') m) x :=
    fun x hx => (hins x).mpr (.inl hx)
  have hnew := h.sent hst hsd hsent huniq hword
  obtain ⟨hof, hcid⟩ := h.list r ht hst
  -- An insert was there, or it is the one of the message.
  have hcase : ∀ x, rwflIns ((rwflObj n junk).issue s r i (some ht') m) x →
      rwflIns s x ∨ (m.ins = some x ∧ NewIns s x) := by
    intro x hx
    refine ((hins x).mp hx).imp_right fun hm => ⟨hm, ?_⟩
    obtain ⟨y, hy, hN, -⟩ := hnew.resolve_left (by simp [hm])
    obtain rfl : x = y := Option.some.inj (hm.symm.trans hy)
    exact hN
  have hlog : InsLog (rwflIns ((rwflObj n junk).issue s r i (some ht') m)) := by
    rcases hnew with ⟨hn, -⟩ | ⟨x, hx, hN, -⟩
    · exact h.log.congr fun j => by rw [hins, hn]; simp
    · exact hN.log.congr fun j => by rw [hins, hx, Option.some.injEq, eq_comm]
  have hclock := h.sent_clock hst hsd hsent huniq hword
  rw [← hstep.clock] at hclock
  refine ⟨hlog, fun x hx => ?_, fun x hx => ?_, fun x hx => ?_, fun q x hx => ?_,
    fun q ht₁ hq => ?_⟩
  · rcases hcase x hx with hx | ⟨-, hN⟩
    · exact h.readd x hx
    · exact hN.readd
  · have hnamed : strEq x.prev nullWord = true ∨ strEq x.prev readdWord = true ∨
        ∃ f, rwflIns s f ∧ f.id = x.prev := by
      rcases hcase x hx with hx | ⟨-, hN⟩
      · exact h.named x hx
      · exact hN.named
    refine hnamed.imp_right (.imp_right ?_)
    rintro ⟨f, hf, hid⟩
    exact ⟨f, hold f hf, hid⟩
  · have hbase : ∀ f, rwflIns s f → f.id = x.id → ∃ o f',
        rwflFresh ((rwflObj n junk).issue s r i (some ht') m) o f' ∧ f'.id = x.id := by
      intro f hf hid
      obtain ⟨o, f', ⟨j, m', hj, hi, hr⟩, hid'⟩ := h.base f hf
      exact ⟨o, f', ⟨j, m', Obj.issue_log_of_some hl hj, hi, hr⟩, hid'.trans hid⟩
    rcases hcase x hx with hx | ⟨hx, hN⟩
    · exact hbase x hx rfl
    · rcases hN.base with hre | ⟨f, hf, hid⟩
      · exact ⟨r, x, ⟨i, m, Obj.issue_log_self, hx, hre⟩, rfl⟩
      · exact hbase f hf hid
  · rcases rwflFresh_issue hx with hx | ⟨rfl, hx, hre⟩
    · obtain ⟨left, right, rand, c, hpos, hid, hsum⟩ := h.made q x hx
      exact ⟨left, right, rand, c, hpos, hid,
        lt_clock_step hst hst₂ (fun q hq => Obj.issue_st_ne hq) hclock.1 hsum⟩
    · -- The new identifier was made with the clock before the command.
      obtain ⟨y, hy, -, hc, -⟩ := hnew.resolve_left (by simp [hx])
      obtain rfl : x = y := Option.some.inj (hx.symm.trans hy)
      obtain ⟨hc, left, right, rand, hpos⟩ := hc hre
      refine ⟨left, right, rand, ht.clock, hpos, hcid, fun ht₁ hq => ?_⟩
      obtain rfl : ht₂ = ht₁ := Option.some.inj (hst₂.symm.trans hq)
      rw [hstep.clock, hc, sum_vcInc]
      omega
  · by_cases hqr : q = r
    · subst hqr
      obtain rfl : ht₂ = ht₁ := Option.some.inj (hst₂.symm.trans hq)
      exact ⟨hstep.ofInserts (hsame.kept.sound hsd) ((hof.mono hold).kept hsame.kept) hlog
        fun x hx => (hins x).mpr (.inr hx), hclock.2⟩
    · obtain ⟨hof', hid⟩ := h.list q ht₁ (by rwa [Obj.issue_st_ne hqr] at hq)
      exact ⟨hof'.mono hold, hid⟩

/-- **The places of a run**: the inserts agree on the identifiers, and every list is made by
them. -/
theorem rwfl_places (hs : (rwflObj n junk).Reach (rwflListGuard junk) s) : RwflPlaces s := by
  refine hs.rule .start ?_ ?_ ?_
  · intro s r o i s₁ hs ih hg hp
    obtain ⟨ht, ht', hst, rfl, -, -, -, hsame, hres⟩ :=
      rwflObj_prepare_cases ((rwfl_typed (hs.mono fun _ _ h => h.1)).1 r) hg.1.1 hp
    have hc : ht'.clock = ht.clock := by
      rcases hres with ⟨-, hc⟩ | ⟨m, hm, -⟩
      · exact hc
      · cases hm
    exact ih.moved rfl hst Obj.reject_st_self (fun q hq => Obj.reject_st_ne hq) hc
      fun hof => hof.kept hsame.kept
  · intro s r o i s₁ m hs ih hg hp hl
    obtain ⟨ht, ht', ht₂, hst, rfl, hsd, hsame, hsent, hstep, hst₂⟩ :=
      rwfl_issue (hs.mono fun _ _ h => h.1) hg.1 hp
    exact ih.issue hl hst hsd hsame hsent hstep (hst₂ i)
      (fun hf j q m' hj => hg.2.1 m (by rw [hp]) hf q j (hs.wf.own j q m' hj) q m' hj)
      (hg.2.2 m (by rw [hp]))
  · intro s r i o m hs ih hg hl hi
    obtain ⟨ht, ht₂, hst, hsd, hstep, hst₂⟩ := rwfl_deliver (hs.mono fun _ _ h => h.1) hl r
    exact ih.moved rfl hst hst₂ (fun q hq => Obj.deliver_st_ne hq) hstep.clock fun hof =>
      hstep.ofInserts hsd hof ih.log fun x hx => ⟨i, o, m, hl, hx⟩

end Places

/-! ## Concrete runs -/

/-- A test for `rwflUnique`. -/
def rwflUniqueOk (junk : Fin n → Sds → Normal → BitVec 32)
    (s : Sys (Fin n) (Option (RwfHt n)) (RwflMsg n)) : Ev (Fin n) LCmd → Bool
  | .op r o _ => ((rwflObj n junk).prepare r (s.st r) o).2.all fun m => !m.isFresh ||
    decide (∀ q, ∀ j ∈ s.recv q, (s.log j).all fun p => !p.2.isFresh || p.2.id ≠ m.id)
  | .recv _ _ => true

theorem rwflUnique_of_ok (junk : Fin n → Sds → Normal → BitVec 32)
    (s : Sys (Fin n) (Option (RwfHt n)) (RwflMsg n)) (e : Ev (Fin n) LCmd)
    (h : rwflUniqueOk junk s e = true) : rwflUnique junk s e := by
  cases e with
  | op r o i =>
    intro m hm hf q j hj o' m' hl hf'
    simp only [rwflUniqueOk, hm, Option.all_some, hf, Bool.not_true, Bool.false_or,
      decide_eq_true_eq] at h
    have hne := h q j hj
    simpa [hl, hf'] using hne
  | recv r i => trivial

/-- A test for `rwflListGuard`. -/
def rwflListGuardOk (junk : Fin n → Sds → Normal → BitVec 32)
    (s : Sys (Fin n) (Option (RwfHt n)) (RwflMsg n)) (e : Ev (Fin n) LCmd) : Bool :=
  rwflGuardOk s e && rwflUniqueOk junk s e &&
    match e with
    | .op r o _ => ((rwflObj n junk).prepare r (s.st r) o).2.all fun m =>
      !m.isFresh || !strEq m.id nullWord && !strEq m.id readdWord
    | .recv _ _ => true

theorem rwflListGuard_of_ok (junk : Fin n → Sds → Normal → BitVec 32)
    (s : Sys (Fin n) (Option (RwfHt n)) (RwflMsg n)) (e : Ev (Fin n) LCmd)
    (h : rwflListGuardOk junk s e = true) : rwflListGuard junk s e := by
  simp only [rwflListGuardOk, Bool.and_eq_true] at h
  refine ⟨rwflGuard_of_ok junk s e h.1.1, rwflUnique_of_ok junk s e h.1.2, ?_⟩
  cases e with
  | op r o i =>
    intro m hm hf
    simpa [hm, hf] using h.2
  | recv r i => trivial

/-- An element is inserted, removed and added again; a third replica gets the readd before the
insert, and an insert after the element. -/
def rwflOrderDemo : List (Ev (Fin 3) LCmd) :=
  let a : Sds := "a".toList
  [.op 0 (insertFront a 5) 0, .recv 1 0,
    .op 1 (.insert 9 a "b".toList "c".toList (some 2) (some 2) (some 2) (some 0) 3) 1,
    .op 1 (.rem 3 a) 2,
    .op 1 (.insert 9 "readd".toList a "d".toList (some 2) (some 2) (some 2) (some 0) 0) 3,
    .recv 2 3, .recv 2 1, .recv 2 0, .op 2 (insertFront "e".toList 1) 4, .recv 0 1, .recv 0 4]

end CrdtRedis
