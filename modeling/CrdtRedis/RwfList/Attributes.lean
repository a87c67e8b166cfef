import CrdtRedis.RwfList.Content

/-!
# The attributes that the RWF list shows

A remove clears the stamps of an element's attributes but not their values, and an update that
overtakes the insert of its epoch makes the element exist (`PID_WAIT_INNATE`) with one value of the
epoch only.

* `Rwfle.Settled`: an element that waits for its insert has a stamp for every attribute.
* `Unsettles`: the messages that leave an element with a place and not settled; commands send none.
* `rwfl_settled`: if no such message arrives, the elements with a place are settled.
* `rwfl_attributes`: then every element that is reported shows values that messages of its epoch
  wrote, and replicas that received the same messages report the same values.
* `rwfl_stale_attribute`: an update that overtakes a readd makes one replica show a value of the
  removed element and another one what its memory had.
-/

namespace CrdtRedis

open Broadcast Ht Linked

variable {n : ℕ}

/-- What a message writes to attribute `p`. -/
def RwflMsg.writes (p : Attr) : RwflMsg n → Option (BitVec 32)
  | .insert _ _ _ args _ _ => some (args.get p)
  | .update _ type value _ _ =>
    let v : BitVec 32 := value.setWidth 32
    if attrOf type = some p then some (p.written v (v == 0)) else none
  | .rem .. => none

/-- An element that waits for its insert shows no attribute without an update. -/
def Rwfle.Settled (x : Rwfle n) : Prop :=
  x.header.pid = PID_WAIT_INNATE → ∀ p, (x.stamp p).isSome

/-- An element that `rwfllist` reports: it has a place and exists. -/
def rwflReports (ht : RwfHt n) (k : Sds) : Prop :=
  (ht.node k).oid.isSome ∧ (ht.node k).body.header.exists

instance (ht : RwfHt n) (k : Sds) : Decidable (rwflReports ht k) :=
  inferInstanceAs (Decidable (_ ∧ _))

/-! ## One message -/

/-- A message that leaves an element with a place and not settled: an insert of an old epoch, which
places an element that waits and has no stamp for some attribute, or an update that makes an element
with a place exist. -/
def Unsettles (x : Node (Rwfle n)) : RwflMsg n → Prop
  | .insert _ _ _ _ _ t => x.oid = none ∧
      ((∀ q, t.vector q ≤ x.body.header.current.vector q) ∧ ¬ vcEqual t x.body.header.current) ∧
      x.body.header.pid = PID_WAIT_INNATE ∧ ∃ p ∈ Attr.all, (x.body.stamp p).isNone
  | .update id type value lt t => x.oid.isSome ∧ x.body.revives (.update id type value lt t)
  | .rem .. => False

instance (x : Node (Rwfle n)) (m : RwflMsg n) : Decidable (Unsettles x m) :=
  match m with
  | .insert .. => inferInstanceAs (Decidable (_ ∧ _ ∧ _))
  | .update .. => inferInstanceAs (Decidable (_ ∧ _))
  | .rem .. => inferInstanceAs (Decidable False)

section

variable {x : Node (Rwfle n)} {e : RwfEle n RwflPay} {m : RwflMsg n} {ht ht' : RwfHt n} {r : Fin n}
  {o : LCmd}

/-- `Rwfle.Settled`, in the framework. -/
def RwfEle.Settled (e : RwfEle n RwflPay) : Prop :=
  e.header.pid = PID_WAIT_INNATE → ∀ p, (e.pay.stamp p).isSome

/-- The header and the stamps of an element after a message, in the framework. -/
theorem settled_apply (x : Rwfle n) (m : RwflMsg n) : (x.apply m).Settled ↔
    (rwfEffect (rwflPayload n fun _ _ => 0) x.toRwf m.toRwf).Settled := by
  rw [← apply_toRwf]
  rfl

theorem epochStart_settled (F : Payload n (Attr → BitVec 32) (Option Attr × BitVec 32) AttrUpd
    RwflPay) (t : Clock n) : (epochStart F e t).Settled :=
  fun h => absurd (show PID_NEXIST = PID_WAIT_INNATE from h) (by decide)

/-- After an insert of its epoch an element has an insert. -/
theorem epoch_add_settled (F : Payload n (Attr → BitVec 32) (Option Attr × BitVec 32) AttrUpd
    RwflPay) (a : Attr → BitVec 32) (t : Clock n) : (e.epoch F (.add a t)).Settled := by
  intro h
  refine absurd h ?_
  simp only [RwfEle.epoch, epochStep]
  split
  · exact (natCast_ne_special _).2
  · rename_i hlt
    simp only [PID_WAIT_INNATE]
    omega

/-- An update removes no stamp. -/
theorem RwflPay.upd_stamp {x : RwflPay} {p : Attr} (u : AttrUpd) (h : (x.stamp p).isSome) :
    ((x.upd u).stamp p).isSome := by
  unfold RwflPay.upd
  split
  · exact h
  · rename_i q _
    split
    · by_cases hp : p = q
      · simp [hp]
      · simpa [hp] using h
    · exact h

/-- An update of an element that exists leaves it settled. -/
theorem epoch_upd_settled (u : AttrUpd) (t : Clock n) (he : e.Settled)
    (hex : e.header.pid ≠ PID_NEXIST) :
    (e.epoch (rwflPayload n fun _ _ => 0) (.upd u t)).Settled := by
  intro (h : (if e.header.pid = PID_NEXIST then PID_WAIT_INNATE else e.header.pid) =
    PID_WAIT_INNATE) p
  rw [if_neg hex] at h
  exact RwflPay.upd_stamp u (he h p)

/-- **A message that does not unsettle an element leaves it settled**, if it has a place then. -/
theorem settled_of_not_unsettles (hold : x.oid.isSome → x.body.Settled)
    (hplace : m.ins = none → x.oid.isSome) (hm : ¬ Unsettles x m) : (x.body.apply m).Settled := by
  rw [settled_apply]
  -- A history that is new starts an epoch, in which only an update lets the element wait.
  by_cases hle : m.toRwf.t.vector ≤ x.body.toRwf.header.current.vector
  · rw [rwfEffect_of_le hle]
    split
    · rename_i heq
      cases m with
      | insert prev id content args pos t => exact epoch_add_settled _ _ _
      | update id type value lt t =>
        refine epoch_upd_settled _ _ (hold (hplace rfl)) fun hpid => hm ⟨hplace rfl, ?_⟩
        exact ⟨heq.ge, .inl (by simp [Reh.exists, show x.body.header.pid = _ from hpid])⟩
      | rem id t => exact hold (hplace rfl)
    · rename_i hne
      cases m with
      | insert prev id content args pos t =>
        cases hoid : x.oid with
        | some k => exact hold (by simp [hoid])
        | none =>
          intro hwait p
          by_contra hstamp
          refine hm ⟨hoid, ⟨hle, fun h => hne (vcEqual_iff.mp h)⟩, hwait, p, p.mem_all, ?_⟩
          rwa [← Option.not_isSome, Bool.not_eq_true', ← Bool.not_eq_true]
      | update id type value lt t => exact hold (hplace rfl)
      | rem id t => exact hold (hplace rfl)
  · rw [rwfEffect_of_not_le hle]
    split
    · rename_i hge
      cases m with
      | insert prev id content args pos t => exact epoch_add_settled _ _ _
      | update id type value lt t =>
        refine absurd ⟨hplace rfl, right_eq_sup.mp hge, .inr fun h => hle ?_⟩ hm
        exact (vcEqual_iff.mp h).le
      | rem id t => exact epochStart_settled (e := x.body.toRwf) (rwflPayload n fun _ _ => 0) t
    · exact epochStart_settled _ _

/-- No command unsettles its element. -/
theorem RwflSent.not_unsettles (h : RwflSent r ht ht' o m) :
    ¬ Unsettles (ht.node m.id) m := by
  have hr := h.not_revives
  cases h with
  | insert => exact fun hu => hu.2.1.2 (vcEqual_iff.mpr rfl)
  | update => exact fun hu => hr hu.2
  | rem => exact fun hu => hu

end

/-! ## Runs -/

section Runs

variable (junk : Fin n → Sds → Normal → BitVec 32)

/-- Runs in which no message that arrives unsettles its element. -/
def rwflAttrOk (s : Sys (Fin n) (Option (RwfHt n)) (RwflMsg n)) : Ev (Fin n) LCmd → Prop
  | .op _ _ _ => True
  | .recv r i => ∀ o m ht, s.log i = some (o, m) → s.st r = some ht → ¬ Unsettles (ht.node m.id) m

/-- The runs above of commands that name none of the table's own names and find room for their
identifiers. -/
def rwflAttrGuard (s : Sys (Fin n) (Option (RwfHt n)) (RwflMsg n)) (e : Ev (Fin n) LCmd) : Prop :=
  rwflGuard junk s e ∧ rwflAttrOk s e

variable {junk} {s : Sys (Fin n) (Option (RwfHt n)) (RwflMsg n)}

/-- A message gives a place to its own element only. -/
theorem RwflStep.oid_of_ne {ht ht' : RwfHt n} {m : RwflMsg n} {k : Sds} (h : RwflStep ht ht' m)
    (hk : k ≠ m.id) : (ht'.node k).oid = (ht.node k).oid := by
  cases m with
  | insert prev id content args pos t =>
    cases hoid : (ht.node id).oid with
    | some o => exact (h.place.1 (by simp [hoid])).oid k
    | none =>
      have := congrFun (h.place.2 hoid).oid k
      simpa [Function.update_of_ne (show k ≠ id from hk)] using this
  | update id type value lt t => exact Kept.oid h.place k
  | rem id t => exact Kept.oid h.place k

/-- A message other than an insert gives no element a place. -/
theorem RwflStep.oid_of_ins {ht ht' : RwfHt n} {m : RwflMsg n} (h : RwflStep ht ht' m)
    (hins : m.ins = none) (k : Sds) : (ht'.node k).oid = (ht.node k).oid := by
  cases m with
  | insert prev id content args pos t => cases hins
  | update id type value lt t => exact Kept.oid h.place k
  | rem id t => exact Kept.oid h.place k

/-- **Elements with a place are settled**, in every such run. -/
theorem rwfl_settled (hs : (rwflObj n junk).Reach (rwflAttrGuard junk) s) :
    ∀ r ht, s.st r = some ht → ∀ k, (ht.node k).oid.isSome → (ht.node k).body.Settled := by
  refine rwfl_rule (I := fun _ _ ht => ∀ k, (ht.node k).oid.isSome → (ht.node k).body.Settled)
    hs (fun _ _ h => h.1) ?_ ?_ (fun _ _ _ _ _ _ _ ih => ih) ?_ ?_
  · rintro r ht hst k hoid
    cases hst
    cases hoid
  · intro s q ht ht' hsame ih k hoid
    rw [hsame.node] at hoid ⊢
    exact ih k hoid
  · intro s r o i ht ht' ht₂ m _ _ hsd hsame hsent hstep ih k hoid
    by_cases hk : k = m.id
    · subst hk
      rw [hstep.body, if_pos rfl, hsame.node]
      refine settled_of_not_unsettles (ih m.id) (fun hins => ?_) hsent.not_unsettles
      rwa [hstep.oid_of_ins hins, hsame.node] at hoid
    · rw [hstep.oid_of_ne hk, hsame.node] at hoid
      rw [hstep.body, if_neg hk, hsame.node]
      exact ih k hoid
  · intro s r i o m ht ht₂ _ hg hl hst _ hstep he ih k hoid
    by_cases hk : k = m.id
    · subst hk
      rw [hstep.body, if_pos rfl]
      refine settled_of_not_unsettles (ih m.id) (fun hins => ?_) (hg.2 o m ht hl hst)
      rwa [hstep.oid_of_ins hins] at hoid
    · rw [hstep.oid_of_ne hk] at hoid
      rw [hstep.body, if_neg hk]
      exact ih k hoid

/-- A message on element `k` that the framework sees. -/
theorem rwflOn_log {k : Sds} {i : ℕ} {o : Fin n} {m' : RwflEleMsg n}
    (h : (rwflOn junk s k).log i = some (o, m')) :
    ∃ m, s.log i = some (o, m) ∧ m.id = k ∧ m.toRwf = m' := by
  obtain ⟨m, hl, hm⟩ := View.sys_log_some _ h
  obtain ⟨hk, hm⟩ := Option.ite_none_right_eq_some.mp hm
  exact ⟨m, hl, hk, Option.some.inj hm⟩

theorem toRwf_t (m : RwflMsg n) : m.toRwf.t = m.t := by cases m <;> rfl

theorem writes_add {m : RwflMsg n} {a : Attr → BitVec 32} {t : Clock n} (h : m.toRwf = .add a t)
    (p : Attr) : m.writes p = some (a p) := by
  cases m with
  | insert prev id content args pos t' =>
    cases h
    rfl
  | update id type value lt t' => cases h
  | rem id t' => cases h

theorem writes_upd {m : RwflMsg n} {u : AttrUpd} {t : Clock n} (h : m.toRwf = .upd u t) {p : Attr}
    (hp : u.attr = some p) : m.writes p = some u.value := by
  cases m with
  | insert prev id content args pos t' => cases h
  | update id type value lt t' =>
    cases h
    have hp : attrOf type = some p := hp
    simp [RwflMsg.writes, updValue, hp]
  | rem id t' => cases h

/-- An element that exists and is settled has an update or an insert of its epoch for every
attribute. -/
theorem RwflClosed.written {S : Type} {T : Sys (Fin n) S (RwflEleMsg n)} {r : Fin n} {x : Rwfle n}
    (h : RwflClosed T r x.toRwf) (hx : x.Settled) (hex : x.header.exists) (p : Attr) :
    (∃ i u, NewestAt T r p i u ∧ x.attrs.get p = u.value ∧ (x.stamp p).isSome) ∨
      ∃ i o a, WinAt T r i o a ∧ x.attrs.get p = a p := by
  by_cases hu : ∃ i u, UpdAt T r i u ∧ u.attr = some p
  · obtain ⟨i, u, hi⟩ := exists_newestAt hu
    obtain ⟨hst, hv⟩ := h.stamp p i u hi
    exact .inl ⟨i, u, hi, hv, by rw [show x.stamp p = _ from hst]; rfl⟩
  · have hnone : x.stamp p = none :=
      h.stamp_none p fun i u hi hp => hu ⟨i, u, hi, hp⟩
    have hadd : ∃ i o a, AddAt T r i o a := by
      by_contra hno
      simp only [not_exists] at hno
      by_cases hupd : ∃ i u, UpdAt T r i u
      · have := hx (h.header.wait hno hupd) p
        simp [hnone] at this
      · have : x.header.pid = PID_NEXIST := h.header.nexist hno hupd
        simp [Reh.exists, this] at hex
    obtain ⟨i, o, a, hw⟩ := exists_winAt hadd
    exact .inr ⟨i, o, a, hw, h.initial i o a hw p hnone⟩

/-- **The attributes shown are those of the element's epoch**: in every such run, every element that
is reported shows for every attribute a value that a message with the element's remove history
wrote, and the chain has no other elements than those with a place; replicas that received the same
messages report the same elements with the same values. -/
theorem rwfl_attributes (hs : (rwflObj n junk).Reach (rwflAttrGuard junk) s) :
    (∀ r, ∃ ht, s.st r = some ht ∧
      (∀ l, Chain ht.nexts ht.headD l → ∀ k ∈ l, (ht.node k).oid.isSome) ∧
      ∀ k, rwflReports ht k → ∀ p, ∃ i ∈ s.recv r, ∃ o m, s.log i = some (o, m) ∧ m.id = k ∧
        m.t.vector = (ht.node k).body.header.current.vector ∧
        m.writes p = some ((ht.node k).body.attrs.get p)) ∧
    ∀ r q ht ht', s.st r = some ht → s.st q = some ht' → s.recv r = s.recv q → ∀ k,
      (rwflReports ht k ↔ rwflReports ht' k) ∧
      (rwflReports ht k → ∀ p, (ht.node k).body.attrs.get p = (ht'.node k).body.attrs.get p) := by
  have hg : (rwflObj n junk).Reach (rwflGuard junk) s := hs.mono fun _ _ h => h.1
  have hset := rwfl_settled hs
  obtain ⟨hclosed, hagree⟩ := rwfl_convergence junk hg
  refine ⟨fun r => ?_, fun r q ht ht' hr hq hD k => ?_⟩
  · obtain ⟨ht, hst, -, hsd⟩ := (rwfl_typed hg).1 r
    refine ⟨ht, hst, fun l hl k hk => ?_, fun k ⟨hoid, hex⟩ p => ?_⟩
    · obtain ⟨l', hl', hpos⟩ := hsd.head
      obtain rfl := hl'.unique hl
      rw [hsd.oid]
      exact hpos k hk
    · obtain ⟨ht₁, hst₁, hc⟩ := hclosed k r
      obtain rfl := Option.some.inj (hst₁.symm.trans hst)
      have hcur : (ht₁.node k).body.header.current.vector = rwfJoin (rwflOn junk s k) r :=
        hc.header.current
      rw [hcur]
      rcases hc.written (hset r ht₁ hst k hoid) hex p with ⟨i, u, hi, hv, -⟩ | ⟨i, o, a, hw, hv⟩
      · obtain ⟨⟨hmem, o, t, hl, ht⟩, hp, -⟩ := hi
        obtain ⟨m, hlm, hk, hm⟩ := rwflOn_log hl
        refine ⟨i, ((rwflView junk k).mem_sys_recv.mp hmem).1, o, m, hlm, hk, ?_, ?_⟩
        · rw [← toRwf_t, hm]; exact ht
        · rw [hv]; exact writes_upd hm hp
      · obtain ⟨⟨hmem, t, hl, ht⟩, -⟩ := hw
        obtain ⟨m, hlm, hk, hm⟩ := rwflOn_log hl
        refine ⟨i, ((rwflView junk k).mem_sys_recv.mp hmem).1, o, m, hlm, hk, ?_, ?_⟩
        · rw [← toRwf_t, hm]; exact ht
        · rw [hv]; exact writes_add hm p
  · have hD' : (rwflOn junk s k).recv r = (rwflOn junk s k).recv q := by
      ext i
      simp only [rwflOn, View.mem_sys_recv, hD]
    have ha := hagree k r q ht ht' hr hq hD'
    have hplace : (ht.node k).oid.isSome = (ht'.node k).oid.isSome := by
      obtain ⟨h₁, hr', -, hsd⟩ := (rwfl_typed hg).1 r
      obtain ⟨h₂, hq', -, hsd'⟩ := (rwfl_typed hg).1 q
      obtain rfl := Option.some.inj (hr'.symm.trans hr)
      obtain rfl := Option.some.inj (hq'.symm.trans hq)
      rw [hsd.oid, hsd'.oid, ← hsd.content, ← hsd'.content, Bool.eq_iff_iff,
        rwfl_applied hg r _ hr, rwfl_applied hg q _ hq, hD]
    have hex : (ht.node k).body.header.exists = (ht'.node k).body.header.exists := by
      simp only [Reh.exists]
      rw [show (ht.node k).body.header.pid = (ht'.node k).body.header.pid from ha.pid]
    refine ⟨by rw [rwflReports, rwflReports, hplace, hex], fun ⟨hoid, hex⟩ p => ha.value p ?_⟩
    obtain ⟨ht₁, hst₁, hc⟩ := hclosed k r
    obtain rfl := Option.some.inj (hst₁.symm.trans hr)
    rcases hc.written (hset r ht₁ hr k hoid) hex p with ⟨i, u, -, -, hs⟩ | ⟨i, o, a, hw, -⟩
    · exact .inl hs
    · exact .inr ⟨i, o, a, hw.1⟩

end Runs

/-! ## Concrete runs -/

/-- A test for `rwflAttrGuard`. -/
def rwflAttrGuardOk (s : Sys (Fin n) (Option (RwfHt n)) (RwflMsg n)) (e : Ev (Fin n) LCmd) :
    Bool :=
  rwflGuardOk s e &&
    match e with
    | .op _ _ _ => true
    | .recv r i => (s.log i).all fun p => (s.st r).all fun ht =>
      !decide (Unsettles (ht.node p.2.id) p.2)

theorem rwflAttrGuard_of_ok (junk : Fin n → Sds → Normal → BitVec 32)
    (s : Sys (Fin n) (Option (RwfHt n)) (RwflMsg n)) (e : Ev (Fin n) LCmd)
    (h : rwflAttrGuardOk s e = true) : rwflAttrGuard junk s e := by
  simp only [rwflAttrGuardOk, Bool.and_eq_true] at h
  refine ⟨rwflGuard_of_ok junk s e h.1, ?_⟩
  cases e with
  | op r o i => trivial
  | recv r i =>
    intro o m ht hl hst
    simpa [hl, hst] using h.2

/-- An element is removed, added again and updated, and the other replica gets the messages in
order. -/
def rwflAttrDemo : List (Ev (Fin 2) LCmd) :=
  let a : Sds := "a".toList
  [.op 0 (insertFront a 5) 0, .op 0 (.rem 3 a) 1, .op 0 (readdWith a "d".toList) 2,
    .op 0 (.update 5 a "font".toList (some 5)) 3, .recv 1 0, .recv 1 1, .recv 1 2, .recv 1 3]

/-- The condition holds of a run with a remove and a readd, after which the element is reported. -/
theorem rwfl_attributes_demo : ∃ ht ht' : RwfHt 2,
    ((rwflObj 2 fun _ _ _ => 0).runOf rwflAttrDemo).st 0 = some ht ∧
    ((rwflObj 2 fun _ _ _ => 0).runOf rwflAttrDemo).st 1 = some ht' ∧
    rwflReports ht "a".toList ∧ rwflReports ht' "a".toList ∧
    ∀ p, (ht.node "a".toList).body.attrs.get p = (ht'.node "a".toList).body.attrs.get p := by
  have h := rwfl_attributes (Obj.reach_runOf (rwflAttrGuard_of_ok fun _ _ _ => 0) rwflAttrDemo
    (by decide +kernel))
  obtain ⟨ht, hr, -⟩ := h.1 0
  obtain ⟨ht', hq, -⟩ := h.1 1
  obtain ⟨hiff, hval⟩ := h.2 0 1 ht ht' hr hq (by decide +kernel) "a".toList
  have hrep : rwflReports ht "a".toList := by
    have : ((((rwflObj 2 fun _ _ _ => 0).runOf rwflAttrDemo).st 0).map fun ht =>
        decide (rwflReports ht "a".toList)) = some true := by decide +kernel
    rw [hr, Option.map_some] at this
    exact of_decide_eq_true (Option.some.inj this)
  exact ⟨ht, ht', hr, hq, hrep, hiff.mp hrep, hval hrep⟩

/-- An element is inserted by replica `0`, removed and added again by replica `1` and updated by
replica `2`. Replicas `0` and `3` get the update before the readd, and replica `3` also before the
insert. -/
def rwflStaleRun : List (Ev (Fin 4) LCmd) :=
  let a : Sds := "a".toList
  [.op 0 (insertFront a 5) 0, .recv 1 0, .op 1 (.rem 3 a) 1, .op 1 (readdWith a "d".toList) 2,
    .recv 2 1, .recv 2 2, .op 2 (.update 5 a "font".toList (some 5)) 3, .recv 0 1, .recv 0 3,
    .recv 3 3, .recv 3 0, .recv 3 1]

/-- The font and the size of the elements that a list reports. -/
def fontSizes (ht : RwfHt n) : Option (List (Sds × BitVec 32 × BitVec 32)) :=
  (rwfllist ht).map fun x => x.2.map fun e =>
    (e.oid, e.attrs.get (.normal .font), e.attrs.get (.normal .size))

/-- **An update that overtakes its insert shows values of the past**: with links in order, replica
`0` reports the size of the removed element, replica `3`, which received the same messages, what its
memory had, and no message applied with the element's remove history wrote a size. -/
theorem rwfl_stale_attribute : ∃ s,
    (rwflObj 4 fun _ _ _ => 7).Reach (fun s e => fifo s e ∧ rwflListGuard (fun _ _ _ => 7) s e) s ∧
    s.recv 0 = s.recv 3 ∧ (s.st 0).bind fontSizes = some [("a".toList, 5, 1)] ∧
    (s.st 3).bind fontSizes = some [("a".toList, 5, 7)] ∧
    ∀ ht, s.st 0 = some ht → ∀ i ∈ s.recv 0, ∀ o m, s.log i = some (o, m) →
      m.t.vector = (ht.node "a".toList).body.header.current.vector →
        m.writes (.normal .size) = none := by
  refine ⟨(rwflObj 4 fun _ _ _ => 7).runOf rwflStaleRun, Obj.reach_runOf
    (g := fun s e => Obj.fifoOk s e && rwflListGuardOk (fun _ _ _ => 7) s e) (fun s e h => ?_) _
    (by decide +kernel), by decide +kernel, by decide +kernel, by decide +kernel, ?_⟩
  · simp only [Bool.and_eq_true] at h
    exact ⟨Obj.fifo_of_fifoOk s e h.1, rwflListGuard_of_ok _ s e h.2⟩
  · intro ht hst i hi o m hl ht'
    have h : ((((rwflObj 4 fun _ _ _ => 7).runOf rwflStaleRun).st 0).map fun ht =>
        decide (∀ i ∈ ((rwflObj 4 fun _ _ _ => 7).runOf rwflStaleRun).recv 0,
          (((rwflObj 4 fun _ _ _ => 7).runOf rwflStaleRun).log i).all fun p =>
            decide (∀ q, p.2.t.vector q = (ht.node "a".toList).body.header.current.vector q) →
              p.2.writes (.normal .size) = none)) = some true := by
      decide +kernel
    rw [hst, Option.map_some, Option.some.injEq, decide_eq_true_eq] at h
    have := h i hi
    rw [hl, Option.all_some, decide_eq_true_eq] at this
    exact this (decide_eq_true fun q => congrFun ht' q)

end CrdtRedis
