import CrdtRedis.RwfList.Model

/-!
# Convergence of the RWF list

An element of the list is an element of the framework (`rwflView`): the payload is its Lamport
clock, the stamps and the values of its attributes.

* `epochFold_rwfl`: what the messages of an epoch make of the payload: every attribute shows its
  update with the greatest stamp, and the winning insert without one.
* `upd_stamp_unique`: within an epoch, no two updates have one stamp.
* `rwfl_convergence`: in every run of commands that name none of the table's own names, the metadata
  of every element is a function of the messages on it that the replica applied (`RwflClosed`).
* `rwfl_head_diverges`: without this condition it is not. An update of the element `head` changes
  whatever element is first at the replica that applies it.
-/

namespace CrdtRedis

open Broadcast Ht

variable {n : ℕ}

/-! ## The element in the framework -/

/-- The Lamport clock, the stamps and the values of the attributes. -/
@[ext] structure RwflPay where
  current : Lc
  stamp : Attr → Option Lc
  val : Attr → BitVec 32

/-- An update of an attribute: which one, the value that it writes and its stamp. -/
structure AttrUpd where
  attr : Option Attr
  value : BitVec 32
  lt : Lc

/-- `acquired_update` on the payload. -/
def RwflPay.upd (u : AttrUpd) (x : RwflPay) : RwflPay :=
  match u.attr with
  | none => x
  | some p =>
    if (x.stamp p).all fun s => lcCmp s u.lt ≤ 0 then
      { current := lcUpdate x.current u.lt
        stamp := Function.update x.stamp p (some u.lt)
        val := Function.update x.val p u.value }
    else x

/-- An insert that wins gives the attributes without a stamp their values. -/
def RwflPay.add (a : Attr → BitVec 32) (x : RwflPay) : RwflPay :=
  { x with val := fun p => if (x.stamp p).isNone then a p else x.val p }

/-- The messages on one element. -/
abbrev RwflEleMsg (n : ℕ) := RwfMsg n (Attr → BitVec 32) AttrUpd

def rwflPayload (n : ℕ) (junk : Fin n → Normal → BitVec 32) :
    Payload n (Attr → BitVec 32) (Option Attr × BitVec 32) AttrUpd RwflPay where
  new r := ⟨⟨0, (r : ℕ)⟩, fun _ => none, Attrs.get ⟨junk r, 0⟩⟩
  clear x := { x with stamp := fun _ => none, current := { x.current with x := 0 } }
  add := RwflPay.add
  upd := RwflPay.upd
  stamp _ x u := ⟨u.1, u.2, lcNow x.current⟩
  clear_new _ := rfl

def Rwfle.toRwf (x : Rwfle n) : RwfEle n RwflPay := ⟨x.header, x.current, x.stamp, x.attrs.get⟩

/-- The value that an update writes. -/
def updValue (type : Sds) (value : BitVec 64) : Option Attr × BitVec 32 :=
  let v : BitVec 32 := value.setWidth 32
  (attrOf type, ((attrOf type).map fun p => p.written v (v == 0)).getD 0)

def RwflMsg.toRwf : RwflMsg n → RwflEleMsg n
  | .insert _ _ _ args _ t => .add args.get t
  | .update _ type value lt t => .upd ⟨(updValue type value).1, (updValue type value).2, lt⟩ t
  | .rem _ t => .rem t

section

variable {junk : Fin n → Normal → BitVec 32}

theorem acquiredUpdate_toRwf (x : Rwfle n) (type : Sds) (lt : Lc) (value : BitVec 64) :
    (acquiredUpdate x type lt (value.setWidth 32)).toRwf =
      ⟨x.header, RwflPay.upd ⟨(updValue type value).1, (updValue type value).2, lt⟩
        x.toRwf.pay⟩ := by
  unfold acquiredUpdate RwflPay.upd updValue
  cases hp : attrOf type with
  | none => rfl
  | some p =>
    simp only [Option.map_some, Option.getD_some]
    by_cases hs : (x.stamp p).all fun s => lcCmp s lt ≤ 0
    · rw [if_pos hs, if_pos (show (x.toRwf.pay.stamp p).all _ from hs)]
      simp only [Rwfle.toRwf, RwfEle.mk.injEq, RwflPay.mk.injEq, true_and]
      funext q
      by_cases hq : q = p
      · subst hq; simp
      · simp [hq, Attrs.get_set_ne _ hq]
    · rw [if_neg hs, if_neg (show ¬ (x.toRwf.pay.stamp p).all _ from hs)]; rfl

theorem removed_toRwf (x : Rwfle n) (t : Clock n) :
    (x.removed t).toRwf = rwfRemove (rwflPayload n junk) x.toRwf t := by
  unfold Rwfle.removed rwfRemove
  rcases h : removeCheck x.header t with ⟨h', b⟩
  have h₁ : removeCheck x.toRwf.header t = (h', b) := h
  cases b with
  | true => simp only [h₁]; rfl
  | false => simp only [h₁, removeCheck_false h]; rfl

theorem added_toRwf (x : Rwfle n) (args : InsertArgs) (t : Clock n) :
    (x.added args t).toRwf =
      match addCheck x.toRwf.header t with
      | (h, true) => ⟨h, (rwflPayload n junk).add args.get x.toRwf.pay⟩
      | (h, false) => ⟨h, x.toRwf.pay⟩ := by
  unfold Rwfle.added
  rcases h : addCheck x.header t with ⟨h', b⟩
  have h₁ : addCheck x.toRwf.header t = (h', b) := h
  cases b with
  | true =>
    simp only [h₁]
    simp only [Rwfle.toRwf, rwflPayload, RwflPay.add, RwfEle.mk.injEq, RwflPay.mk.injEq, true_and]
    funext p
    rw [Attrs.get_foldl_give args (fun p => (x.stamp p).isNone)]
    simp [Attr.mem_all]
  | false => simp only [h₁, addCheck_false h]; rfl

theorem updated_toRwf (x : Rwfle n) (type : Sds) (value : BitVec 64) (lt : Lc) (t : Clock n) :
    (x.updated type value lt t).toRwf =
      match updateCheck x.toRwf.header t with
      | (h, true) => ⟨h, RwflPay.upd ⟨(updValue type value).1, (updValue type value).2, lt⟩
          x.toRwf.pay⟩
      | (h, false) => ⟨h, x.toRwf.pay⟩ := by
  unfold Rwfle.updated
  rcases h : updateCheck x.header t with ⟨h', b⟩
  have h₁ : updateCheck x.toRwf.header t = (h', b) := h
  cases b with
  | true => simp only [h₁, acquiredUpdate_toRwf]; rfl
  | false => simp only [h₁, updateCheck_false h]; rfl

/-- A message of the list on an element is a message of the framework. -/
theorem apply_toRwf (x : Rwfle n) (m : RwflMsg n) :
    (x.apply m).toRwf = rwfEffect (rwflPayload n junk) x.toRwf m.toRwf := by
  cases m with
  | insert prev id content args pos t =>
    simp only [Rwfle.apply, RwflMsg.toRwf, rwfEffect, RwfMsg.t, ← removed_toRwf]
    exact added_toRwf _ _ _
  | update id type value lt t =>
    simp only [Rwfle.apply, RwflMsg.toRwf, rwfEffect, RwfMsg.t, ← removed_toRwf]
    exact updated_toRwf _ _ _ _ _
  | rem id t => exact removed_toRwf x t

/-- An accepted command is one of the framework. -/
theorem RwflSent.rwf (junk : Fin n → Normal → BitVec 32) {r : Fin n} {ht ht' : RwfHt n} {o : LCmd}
    {m : RwflMsg n} (h : RwflSent r ht ht' o m) :
    ∃ o', rwfPrepare (rwflPayload n junk) r (ht.node m.id).body.toRwf o' = some m.toRwf := by
  cases h with
  | insert hargs hprev hsent => exact ⟨.add _, if_neg (ne_true_of_eq_false hsent.absent)⟩
  | update hex _ => exact ⟨.upd (updValue _ _), if_pos hex⟩
  | rem hex _ => exact ⟨.rem, if_pos hex⟩

end

/-! ## The view -/

section

variable (junk : Fin n → Sds → Normal → BitVec 32)

/-- The element in the framework. -/
def rwflEle (k : Sds) (r : Fin n) : Option (RwfHt n) → RwfEle n RwflPay
  | some ht => (ht.node k).body.toRwf
  | none => (rwfleNew r (junk r k)).toRwf

/-- The list as its element `k`. -/
def rwflView (k : Sds) : View (rwflObj n junk) (rwfObj (rwflPayload n fun r => junk r k)) where
  st := rwflEle junk k
  msg m := if m.id = k then some m.toRwf else none
  inv _ := RwflInv
  okOp := RwflOkOp junk
  okMsg := RwflMsg.Ok
  init _ := rfl
  inv_init _ := ⟨_, rfl, .new (by decide), .new⟩
  inv_prepare hi ho hp := by
    obtain ⟨ht, ht', rfl, rfl, h, hs, h', hsame, hm⟩ := rwflObj_prepare_cases hi ho.1 hp
    refine ⟨⟨ht', rfl, h', hsame.kept.sound hs⟩, fun m' hm' => ?_⟩
    rcases hm with ⟨rfl, -⟩ | ⟨m, rfl, hsent⟩
    · cases hm'
    · obtain rfl : m = m' := by simpa using hm'
      exact hsent.ok hs ho.1 (ho.2 (by rw [hp]; rfl) ht rfl)
  inv_effect hi hm := by
    obtain ⟨ht, rfl, h, hs⟩ := hi
    obtain ⟨ht', he, hstep⟩ := rwflEffect_step h hs hm
    exact ⟨ht', he, hstep.typed, hstep.sound⟩
  reject hi ho hp := by
    obtain ⟨ht, ht', rfl, rfl, -, -, -, hsame, -⟩ := rwflObj_prepare_cases hi ho.1 hp
    exact .inl (by simp [rwflEle, hsame.node])
  hide hi ho hp _ := by
    obtain ⟨ht, ht', rfl, rfl, -, -, -, hsame, -⟩ := rwflObj_prepare_cases hi ho.1 hp
    simp [rwflEle, hsame.node]
  accept {r s o s₁ m m'} hi ho hp hm := by
    obtain ⟨ht, ht', rfl, rfl, -, -, -, hsame, h⟩ := rwflObj_prepare_cases hi ho.1 hp
    rcases h with ⟨h, -⟩ | ⟨m₁, h, hsent⟩
    · cases h
    · obtain rfl := Option.some.inj h
      obtain ⟨rfl, hm'⟩ := Option.ite_none_right_eq_some.mp hm
      cases hm'
      obtain ⟨o', ho'⟩ := hsent.rwf fun r => junk r m.id
      exact ⟨o', by simp [rwfObj, rwflEle, hsame.node, ho']⟩
  effect_hide {r s m} hi hm hk := by
    obtain ⟨ht, rfl, h, hs⟩ := hi
    obtain ⟨ht', he, hstep⟩ := rwflEffect_step h hs hm
    have hne : k ≠ m.id := fun e => by simp [e] at hk
    simp [rwflObj, he, rwflEle, hstep.body, hne]
  effect {r s m m'} hi hm hk := by
    obtain ⟨ht, rfl, h, hs⟩ := hi
    obtain ⟨ht', he, hstep⟩ := rwflEffect_step h hs hm
    obtain ⟨rfl, hm'⟩ := Option.ite_none_right_eq_some.mp hk
    cases hm'
    simp only [rwflObj, Option.bind_some, he, rwflEle, hstep.body, if_true, rwfObj]
    exact apply_toRwf _ _

end

/-! ## The messages of an epoch -/

/-- What the messages `l` of an epoch make of the id and the payload. -/
structure PayFold (l : List (RwflEleMsg n)) (pid : ℤ) (x : RwflPay) : Prop where
  unset : ∀ p, x.stamp p = none → ∀ u t, .upd u t ∈ l → u.attr ≠ some p
  shown : ∀ p c, x.stamp p = some c →
    ∃ u t, .upd u t ∈ l ∧ u.attr = some p ∧ u.lt = c ∧ x.val p = u.value
  newest : ∀ p c, x.stamp p = some c → ∀ u t, .upd u t ∈ l → u.attr = some p → u.lt.key ≤ c.key
  le : ∀ u t, .upd u t ∈ l → u.attr.isSome → u.lt.x ≤ x.current.x
  counter : x.current.x = 0 ∨ ∃ u t, .upd u t ∈ l ∧ u.attr.isSome ∧ u.lt.x = x.current.x
  initial : 0 ≤ pid → ∃ a t, .add a t ∈ l ∧ pid = (t.id : ℕ) ∧
    ∀ p, x.stamp p = none → x.val p = a p

section

variable {junk : Fin n → Normal → BitVec 32} {l : List (RwflEleMsg n)} {pid : ℤ} {x : RwflPay}

theorem PayFold.add (h : PayFold l pid x) (a : Attr → BitVec 32) (t : Clock n) :
    PayFold (l ++ [.add a t]) (t.id : ℕ) (x.add a) := by
  have hmem : ∀ {u t'}, RwfMsg.upd u t' ∈ l ++ [.add a t] ↔ RwfMsg.upd u t' ∈ l := by simp
  refine ⟨fun p hp u t' hu => h.unset p hp u t' (hmem.mp hu), fun p c hp => ?_,
    fun p c hp u t' hu => h.newest p c hp u t' (hmem.mp hu), fun u t' hu => h.le u t' (hmem.mp hu),
    ?_, fun _ => ⟨a, t, by simp, rfl, fun p hp => ?_⟩⟩
  · obtain ⟨u, t', hu, ha, hc, hv⟩ := h.shown p c hp
    have hp' : x.stamp p = some c := hp
    exact ⟨u, t', hmem.mpr hu, ha, hc, by simpa [RwflPay.add, hp'] using hv⟩
  · refine h.counter.imp_right ?_
    rintro ⟨u, t', hu, h'⟩
    exact ⟨u, t', hmem.mpr hu, h'⟩
  · have hp' : x.stamp p = none := hp
    simp [RwflPay.add, hp']

/-- A message that changes neither the payload nor the id. -/
theorem PayFold.skip (h : PayFold l pid x) {m : RwflEleMsg n} {pid' : ℤ}
    (hm : ∀ u t, m = .upd u t → ∀ p ∈ u.attr, ∃ c, x.stamp p = some c ∧ u.lt.key ≤ c.key)
    (hp : 0 ≤ pid' → pid' = pid) : PayFold (l ++ [m]) pid' x := by
  have hmem : ∀ {u t}, RwfMsg.upd u t ∈ l ++ [m] → RwfMsg.upd u t ∈ l ∨ m = .upd u t := by
    intro u t hu
    rcases List.mem_append.mp hu with hu | hu
    · exact .inl hu
    · exact .inr (List.mem_singleton.mp hu).symm
  have hle : ∀ c p, x.stamp p = some c → c.x ≤ x.current.x := by
    intro c p hc
    obtain ⟨u, t, hu, ha, rfl, -⟩ := h.shown p c hc
    exact h.le u t hu (by simp [ha])
  refine ⟨fun p hp u t hu ha => ?_, fun p c hp => ?_, fun p c hp u t hu ha => ?_,
    fun u t hu ha => ?_, ?_, fun h0 => ?_⟩
  · rcases hmem hu with hu | hu
    · exact h.unset p hp u t hu ha
    · obtain ⟨c, hc, -⟩ := hm u t hu p (by simp [ha])
      simp [hp] at hc
  · obtain ⟨u, t, hu, h'⟩ := h.shown p c hp
    exact ⟨u, t, by simp [hu], h'⟩
  · rcases hmem hu with hu | hu
    · exact h.newest p c hp u t hu ha
    · obtain ⟨c', hc, hlt⟩ := hm u t hu p (by simp [ha])
      obtain rfl : c' = c := by simpa [hp] using hc.symm
      exact hlt
  · rcases hmem hu with hu | hu
    · exact h.le u t hu ha
    · obtain ⟨p, hp⟩ := Option.isSome_iff_exists.mp ha
      obtain ⟨c, hc, hlt⟩ := hm u t hu p (by simp [hp])
      have h₁ := hle c p hc
      simp only [Lc.key, Prod.Lex.toLex_le_toLex] at hlt
      omega
  · refine h.counter.imp_right ?_
    rintro ⟨u, t, hu, h'⟩
    exact ⟨u, t, by simp [hu], h'⟩
  · obtain ⟨a, t, ha, hpid, hv⟩ := h.initial (hp h0 ▸ h0)
    exact ⟨a, t, by simp [ha], (hp h0).trans hpid, hv⟩

/-- An update that is not older than the stamp of its attribute. -/
theorem PayFold.upd (h : PayFold l pid x) {u : AttrUpd} {p : Attr} (t : Clock n) {pid' : ℤ}
    (hu : u.attr = some p) (hs : ∀ c, x.stamp p = some c → c.key ≤ u.lt.key)
    (hp : 0 ≤ pid' → pid' = pid) :
    PayFold (l ++ [.upd u t]) pid'
      ⟨lcUpdate x.current u.lt, Function.update x.stamp p (some u.lt),
        Function.update x.val p u.value⟩ := by
  have hmem : ∀ {w t'}, RwfMsg.upd w t' ∈ l ++ [.upd u t] → RwfMsg.upd w t' ∈ l ∨ w = u := by
    intro w t' hw
    rcases List.mem_append.mp hw with hw | hw
    · exact .inl hw
    · simp only [List.mem_singleton, RwfMsg.upd.injEq] at hw
      exact .inr hw.1
  refine ⟨fun q hq w t' hw ha => ?_, fun q c hc => ?_, fun q c hc w t' hw ha => ?_,
    fun w t' hw ha => ?_, ?_, fun h0 => ?_⟩
  · have hqp : q ≠ p := by rintro rfl; simp at hq
    rcases hmem hw with hw | rfl
    · exact h.unset q (by simpa [hqp] using hq) w t' hw ha
    · exact hqp (by simpa [hu] using ha.symm)
  · by_cases hqp : q = p
    · subst hqp
      exact ⟨u, t, by simp, hu, by simpa using hc, by simp⟩
    · obtain ⟨w, t', hw, h'⟩ := h.shown q c (by simpa [hqp] using hc)
      exact ⟨w, t', by simp [hw], by simpa [hqp] using h'⟩
  · by_cases hqp : q = p
    · subst hqp
      obtain rfl : u.lt = c := by simpa using hc
      rcases hmem hw with hw | rfl
      · cases hst : x.stamp q with
        | none => exact absurd ha (h.unset q hst w t' hw)
        | some c => exact (h.newest q c hst w t' hw ha).trans (hs c hst)
      · exact le_rfl
    · rcases hmem hw with hw | rfl
      · exact h.newest q c (by simpa [hqp] using hc) w t' hw ha
      · exact absurd (by simpa [hu] using ha.symm) hqp
  · rw [lcUpdate_x]
    rcases hmem hw with hw | rfl
    · exact (h.le w t' hw ha).trans (le_max_left _ _)
    · exact le_max_right _ _
  · simp only [lcUpdate_x]
    rcases le_total x.current.x u.lt.x with hle | hle
    · exact .inr ⟨u, t, by simp, by simp [hu], (max_eq_right hle).symm⟩
    · rw [max_eq_left hle]
      refine h.counter.imp_right ?_
      rintro ⟨w, t', hw, h'⟩
      exact ⟨w, t', by simp [hw], h'⟩
  · obtain ⟨a, t', ha, hpid, hv⟩ := h.initial (hp h0 ▸ h0)
    refine ⟨a, t', by simp [ha], (hp h0).trans hpid, fun q hq => ?_⟩
    have hqp : q ≠ p := by rintro rfl; simp at hq
    simpa [hqp] using hv q (by simpa [hqp] using hq)

theorem epochFold_rwfl (junk : Fin n → Normal → BitVec 32) (x : RwflPay) (l : List (RwflEleMsg n)) :
    let p := epochFold (rwflPayload n junk) ((rwflPayload n junk).clear x) l
    PayFold l p.1 p.2 := by
  induction l using List.reverseRecOn with
  | nil => exact ⟨by simp, by simp [epochFold, rwflPayload], by simp, by simp, .inl rfl, by
      simp [epochFold, PID_NEXIST]⟩
  | append_singleton l m ih =>
    simp only [epochFold_snoc] at ih ⊢
    generalize epochFold (rwflPayload n junk) _ l = p at ih
    cases m with
    | add a t =>
      simp only [epochStep]
      split
      · exact ih.add a t
      · exact ih.skip (by simp) fun _ => rfl
    | upd u t =>
      have hp : 0 ≤ (if p.1 = PID_NEXIST then PID_WAIT_INNATE else p.1) →
          (if p.1 = PID_NEXIST then PID_WAIT_INNATE else p.1) = p.1 := by
        split
        · simp [PID_WAIT_INNATE]
        · exact fun _ => rfl
      simp only [epochStep]
      change PayFold _ _ (p.2.upd u)
      cases hu : u.attr with
      | none =>
        rw [show p.2.upd u = p.2 by simp [RwflPay.upd, hu]]
        exact ih.skip (fun w t' hw => by cases hw; simp [hu]) hp
      | some q =>
        by_cases hs : (p.2.stamp q).all fun c => lcCmp c u.lt ≤ 0
        · rw [show p.2.upd u = _ by simp only [RwflPay.upd, hu, if_pos hs]; rfl]
          refine ih.upd t hu (fun c hc => ?_) hp
          exact lcCmp_le_zero.mp (by simpa [hc] using hs)
        · rw [show p.2.upd u = p.2 by simp only [RwflPay.upd, hu, if_neg hs]]
          refine ih.skip (fun w t' hw r hr => ?_) hp
          cases hw
          obtain rfl : q = r := by simpa [hu] using hr
          obtain ⟨c, hc, hlt⟩ : ∃ c, p.2.stamp q = some c ∧ 0 < lcCmp c u.lt := by
            cases hst : p.2.stamp q with
            | none => simp [hst] at hs
            | some c => exact ⟨c, rfl, by simpa [hst] using hs⟩
          refine ⟨c, hc, le_of_lt (not_le.mp fun hle => ?_)⟩
          exact absurd (lcCmp_le_zero.mpr hle) (not_le.mpr hlt)
    | rem t => exact ih.skip (by simp) fun _ => rfl

/-! ## Stamps -/

variable {G : Sys (Fin n) (RwfEle n RwflPay) (RwflEleMsg n) →
    Ev (Fin n) (RwfOp (Attr → BitVec 32) (Option Attr × BitVec 32)) → Prop}
  {s : Sys (Fin n) (RwfEle n RwflPay) (RwflEleMsg n)}

/-- The Lamport clock of an element has the replica's id and counts from zero. -/
theorem rwfl_current (hs : (rwfObj (rwflPayload n junk)).Reach G s) (r : Fin n) :
    (s.st r).pay.current.id = (r : ℕ) ∧ 0 ≤ (s.st r).pay.current.x := by
  refine rwfObj_pay (I := fun (r : Fin n) (x : RwflPay) =>
      x.current.id = ((r : ℕ) : ℤ) ∧ 0 ≤ x.current.x) hs
    (fun r => ⟨rfl, le_rfl⟩) (fun r x h => ⟨h.1, le_rfl⟩) (fun r a x h => h) (fun r u x h => ?_) r
  change (x.upd u).current.id = _ ∧ 0 ≤ (x.upd u).current.x
  unfold RwflPay.upd
  split
  · exact h
  · split
    · exact ⟨h.1, by rw [lcUpdate_x]; exact h.2.trans (le_max_left _ _)⟩
    · exact h

/-- The stamp of an update has the id of its origin. -/
theorem upd_stamp_origin (hs : (rwfObj (rwflPayload n junk)).Reach G s) :
    ∀ i o u t, s.log i = some (o, .upd u t) → u.lt.id = (o : ℕ) ∧ 0 < u.lt.x := by
  have h := hs.msg_rule (Q := fun (o : Fin n) (m : RwflEleMsg n) =>
    ∀ u t, m = .upd u t → u.lt.id = ((o : ℕ) : ℤ) ∧ 0 < u.lt.x) ?_
  · exact fun i o u t hi => h i o _ hi u t rfl
  · rintro s r o i s₁ m hs _ hp u t rfl
    have hc := rwfl_current hs r
    rcases rwfPrepare_some (Prod.mk.inj hp).2 with ⟨a, h, -⟩ | ⟨w, h, -⟩ | ⟨h, -⟩
    · cases h
    · obtain ⟨rfl, -⟩ := (RwfMsg.upd.injEq ..).mp h
      exact ⟨hc.1, by simp only [rwflPayload, lcNow]; omega⟩
    · cases h

/-- **Within an epoch, no two updates have one stamp.** -/
theorem upd_stamp_unique (hs : (rwfObj (rwflPayload n junk)).Reach G s) :
    ∀ i j o u w t t', s.log i = some (o, .upd u t) → s.log j = some (o, .upd w t') →
      u.attr.isSome → w.attr.isSome → t.vector = t'.vector → u.lt.x = w.lt.x → i = j := by
  refine hs.log_rule (I := fun (log : ℕ → Option (Fin n × RwflEleMsg n)) => ∀ i j o u w t t',
    log i = some (o, .upd u t) → log j = some (o, .upd w t') →
      u.attr.isSome → w.attr.isSome → t.vector = t'.vector → u.lt.x = w.lt.x → i = j) (by simp) ?_
  intro s r o i s₁ m hs ih _ hp hl
  -- The clock of `r` is past the stamps of its own updates in the epoch.
  have hnew : ∀ j u w t t', s.log j = some (r, .upd w t') → m = .upd u t → w.attr.isSome →
      t.vector = t'.vector → w.lt.x < u.lt.x := by
    intro j u w t t' hj hm ha hv
    rcases rwfPrepare_some (Prod.mk.inj hp).2 with ⟨a, rfl, -⟩ | ⟨v, rfl, -⟩ | ⟨rfl, -⟩
    · cases hm
    · obtain ⟨rfl, rfl⟩ := (RwfMsg.upd.injEq ..).mp hm
      obtain ⟨l, x, hE⟩ := rwfObj_epochOf hs r
      have hf := epochFold_rwfl junk x (l.filterMap s.msg)
      simp only [← hE.fold] at hf
      have hcur := (rwfObj_epoch hs r).current
      obtain ⟨t₁, ht₁⟩ := (hE.upd w).mpr ⟨j, hs.wf.own j r _ hj, r, t', hj, hv ▸ hcur⟩
      have := hf.le w t₁ ht₁ ha
      simp only [rwflPayload, lcNow]
      omega
    · cases hm
  intro i' j' o' u w t t' hi' hj' hu hw hv hx
  rcases Obj.issue_log_cases hi' with ⟨rfl, hxi⟩ | ⟨-, hi''⟩ <;>
    rcases Obj.issue_log_cases hj' with ⟨rfl, hxj⟩ | ⟨-, hj''⟩
  · rfl
  · obtain ⟨rfl, hm⟩ := Prod.mk.inj hxi
    have := hnew j' u w t t' hj'' hm.symm hw hv
    omega
  · obtain ⟨rfl, hm⟩ := Prod.mk.inj hxj
    have := hnew i' w u t' t hi'' hm.symm hu hv.symm
    omega
  · exact ih i' j' o' u w t t' hi'' hj'' hu hw hv hx

end

/-! ## The closed form -/

section Closed

variable {S : Type} {T : Sys (Fin n) S (RwflEleMsg n)} {r q : Fin n}

/-- Broadcast `i` is the update of attribute `p` with the joined history that has the greatest
stamp. -/
def NewestAt (T : Sys (Fin n) S (RwflEleMsg n)) (r : Fin n) (p : Attr) (i : ℕ) (u : AttrUpd) :
    Prop :=
  UpdAt T r i u ∧ u.attr = some p ∧
    ∀ j w, UpdAt T r j w → w.attr = some p → lcCmp w.lt u.lt ≤ 0

/-- The metadata of an element at replica `r` as a function of the messages applied there. -/
structure RwflClosed (T : Sys (Fin n) S (RwflEleMsg n)) (r : Fin n) (e : RwfEle n RwflPay) :
    Prop where
  header : RehClosed T r e.header
  stamp : ∀ p i u, NewestAt T r p i u → e.pay.stamp p = some u.lt ∧ e.pay.val p = u.value
  stamp_none : ∀ p, (∀ i u, UpdAt T r i u → u.attr ≠ some p) → e.pay.stamp p = none
  counter : ∀ i u, UpdAt T r i u → u.attr.isSome →
    (∀ j w, UpdAt T r j w → w.attr.isSome → w.lt.x ≤ u.lt.x) → e.pay.current.x = u.lt.x
  counter_zero : (∀ i u, UpdAt T r i u → u.attr = none) → e.pay.current.x = 0
  initial : ∀ i o a, WinAt T r i o a → ∀ p, e.pay.stamp p = none → e.pay.val p = a p

/-- Replicas that applied the same messages agree on all metadata, on every attribute with a stamp,
and on every attribute if an insert has the joined history. -/
structure RwflAgree (T : Sys (Fin n) S (RwflEleMsg n)) (r : Fin n) (e e' : RwfEle n RwflPay) :
    Prop where
  pid : e.header.pid = e'.header.pid
  current : e.header.current.vector = e'.header.current.vector
  stamp : e.pay.stamp = e'.pay.stamp
  counter : e.pay.current.x = e'.pay.current.x
  value : ∀ p, (e.pay.stamp p).isSome ∨ (∃ i o a, AddAt T r i o a) → e.pay.val p = e'.pay.val p

theorem exists_newestAt {p : Attr} (h : ∃ i u, UpdAt T r i u ∧ u.attr = some p) :
    ∃ i u, NewestAt T r p i u := by
  obtain ⟨i, u, hi, hp, hmax⟩ := exists_max_updAt (fun u => u.lt.key) h
  exact ⟨i, u, hi, hp, fun j w hj hw => lcCmp_le_zero.mpr (hmax j w hj hw)⟩

theorem RwflClosed.agree {e e' : RwfEle n RwflPay} (hr : RwflClosed T r e)
    (hq : RwflClosed T q e') (hD : T.recv r = T.recv q) : RwflAgree T r e e' := by
  obtain ⟨hpid, hcur⟩ := hr.header.agree hq.header hD
  obtain ⟨hA, hU, hW⟩ := updAt_congr hD
  have hN : ∀ p, NewestAt T r p = NewestAt T q p := fun p => by
    funext i u; simp only [NewestAt, hU]
  have hattr : ∀ p, e.pay.stamp p = e'.pay.stamp p ∧
      ((e.pay.stamp p).isSome → e.pay.val p = e'.pay.val p) := by
    intro p
    by_cases h : ∃ i u, UpdAt T r i u ∧ u.attr = some p
    · obtain ⟨i, u, hi⟩ := exists_newestAt h
      obtain ⟨h₁, h₂⟩ := hr.stamp p i u hi
      obtain ⟨h₃, h₄⟩ := hq.stamp p i u (hN p ▸ hi)
      exact ⟨h₁.trans h₃.symm, fun _ => h₂.trans h₄.symm⟩
    · have h' : ∀ i u, UpdAt T r i u → u.attr ≠ some p := fun i u hi hp => h ⟨i, u, hi, hp⟩
      have h₁ := hr.stamp_none p h'
      exact ⟨h₁.trans (hq.stamp_none p (hU ▸ h')).symm, fun hs => by simp [h₁] at hs⟩
  have hstamp : e.pay.stamp = e'.pay.stamp := funext fun p => (hattr p).1
  refine ⟨hpid, hcur, hstamp, ?_, fun p hp => ?_⟩
  · by_cases h : ∃ i u, UpdAt T r i u ∧ u.attr.isSome
    · obtain ⟨i, u, hi, hs, hmax⟩ := exists_max_updAt (fun u => u.lt.x) h
      rw [hr.counter i u hi hs hmax, hq.counter i u (hU ▸ hi) hs (hU ▸ hmax)]
    · have h' : ∀ i u, UpdAt T r i u → u.attr = none := fun i u hi => by
        by_contra hs
        exact h ⟨i, u, hi, Option.isSome_iff_ne_none.mpr hs⟩
      rw [hr.counter_zero h', hq.counter_zero (hU ▸ h')]
  · cases hs : e.pay.stamp p with
    | some c => exact (hattr p).2 (by simp [hs])
    | none =>
      obtain ⟨i, o, a, hw⟩ := exists_winAt (hp.resolve_left (by simp [hs]))
      rw [hr.initial i o a hw p hs, hq.initial i o a (hW ▸ hw) p (hstamp ▸ hs)]

end Closed

/-- The closed form holds in every reachable state of one element. -/
theorem rwfObj_rwflClosed {junk : Fin n → Normal → BitVec 32}
    {s : Sys (Fin n) (RwfEle n RwflPay) (RwflEleMsg n)}
    (hs : (rwfObj (rwflPayload n junk)).Reach anyOrder s) (r : Fin n) :
    RwflClosed s r (s.st r) := by
  have hh := rwfObj_closed hs r
  obtain ⟨l, x, hl⟩ := rwfObj_epochOf hs r
  have hf := epochFold_rwfl junk x (l.filterMap s.msg)
  simp only [← hl.fold] at hf
  refine ⟨hh, fun p i u hi => ?_, fun p hp => ?_, fun i u hi hu hmax => ?_, fun h0 => ?_,
    fun i o a hw p hp => ?_⟩
  · obtain ⟨t, ht⟩ := (hl.upd u).mpr ⟨i, hi.1⟩
    cases hst : (s.st r).pay.stamp p with
    | none => exact absurd hi.2.1 (hf.unset p hst u t ht)
    | some c =>
      -- The stamp shown is the greatest one, and belongs to one update.
      obtain ⟨w, t', hw, ha, rfl, hv⟩ := hf.shown p c hst
      obtain ⟨j, hj⟩ := (hl.upd w).mp ⟨t', hw⟩
      have hlt : w.lt = u.lt := Lc.key_inj.mp (le_antisymm
        (lcCmp_le_zero.mp (hi.2.2 j w hj ha)) (hf.newest p w.lt hst u t ht hi.2.1))
      obtain ⟨⟨-, o, tu, hlu, hvu⟩, hpu, -⟩ := hi
      obtain ⟨-, o', tw, hlw, hvw⟩ := hj
      have ho : o = o' := by
        have h₁ := (upd_stamp_origin hs i o u tu hlu).1
        have h₂ := (upd_stamp_origin hs j o' w tw hlw).1
        rw [hlt] at h₂
        exact Fin.ext (by omega)
      subst ho
      obtain rfl := upd_stamp_unique hs i j o u w tu tw hlu hlw (by simp [hpu]) (by simp [ha])
        (hvu.trans hvw.symm) (by rw [hlt])
      simp only [hlu, Option.some.injEq, Prod.mk.injEq, RwfMsg.upd.injEq] at hlw
      exact ⟨by rw [hlt], by rw [hv, hlw.2.1]⟩
  · by_contra hne
    obtain ⟨c, hc⟩ := Option.ne_none_iff_exists'.mp hne
    obtain ⟨w, t', hw, ha, -⟩ := hf.shown p c hc
    obtain ⟨j, hj⟩ := (hl.upd w).mp ⟨t', hw⟩
    exact hp j w hj ha
  · obtain ⟨t, ht⟩ := (hl.upd u).mpr ⟨i, hi⟩
    have hle := hf.le u t ht hu
    obtain ⟨-, o, t₁, hlog, -⟩ := hi
    have hpos := (upd_stamp_origin hs i o u t₁ hlog).2
    rcases hf.counter with h0 | ⟨w, t', hw, ha, hx⟩
    · omega
    · obtain ⟨j, hj⟩ := (hl.upd w).mp ⟨t', hw⟩
      exact le_antisymm (hx ▸ hmax j w hj ha) hle
  · refine hf.counter.resolve_right ?_
    rintro ⟨w, t', hw, ha, -⟩
    obtain ⟨j, hj⟩ := (hl.upd w).mp ⟨t', hw⟩
    simp [h0 j w hj] at ha
  · have hpid := hh.add i o a hw
    obtain ⟨b, t, hb, hp', hv⟩ := hf.initial (by omega)
    rw [hv p hp, hl.add_unique hs hw.1 hb (by omega)]

/-! ## The list -/

section List

variable (junk : Fin n → Sds → Normal → BitVec 32)
  {s : Sys (Fin n) (Option (RwfHt n)) (RwflMsg n)}

/-- The part of a run of the list that is about element `k`: the broadcasts that name it. -/
def rwflOn (s : Sys (Fin n) (Option (RwfHt n)) (RwflMsg n)) (k : Sds) :
    Sys (Fin n) (RwfEle n RwflPay) (RwflEleMsg n) :=
  (rwflView junk k).sys s

/-- Runs of commands that name none of the table's own names and find room in the decoder's buffer
for the identifiers they make, and every order of delivery. -/
def rwflGuard (s : Sys (Fin n) (Option (RwfHt n)) (RwflMsg n)) : Ev (Fin n) LCmd → Prop
  | .op r o _ => RwflOkOp junk r (s.st r) o
  | .recv _ _ => True

variable {junk} in
/-- The lists of a run are typed, and its messages can be applied. -/
theorem rwfl_typed (hs : (rwflObj n junk).Reach (rwflGuard junk) s) :
    (∀ r, RwflInv (s.st r)) ∧ ∀ i o m, s.log i = some (o, m) → m.Ok :=
  ((rwflView junk []).reach (H := anyOrder) (fun _ _ _ _ h => h) (fun _ _ _ _ => trivial)
    (fun _ _ _ _ _ _ _ => trivial) hs).2

variable {junk} in
/-- What an accepted command does to the list where it was issued. -/
theorem rwfl_issue {r : Fin n} {o : LCmd} {i : ℕ} {s₁ : Option (RwfHt n)} {m : RwflMsg n}
    (hs : (rwflObj n junk).Reach (rwflGuard junk) s) (hg : rwflGuard junk s (.op r o i))
    (hp : (rwflObj n junk).prepare r (s.st r) o = (s₁, some m)) :
    ∃ ht ht' ht₂, s.st r = some ht ∧ s₁ = some ht' ∧ Sound ht ∧ SameList ht ht' ∧
      RwflSent r ht ht' o m ∧ RwflStep ht' ht₂ m ∧
      ∀ j, ((rwflObj n junk).issue s r j s₁ m).st r = some ht₂ := by
  obtain ⟨ht, ht', hst, rfl, -, hsd, htd', hsame, hres⟩ :=
    rwflObj_prepare_cases ((rwfl_typed hs).1 r) hg.1 hp
  obtain ⟨m', hm', hsent⟩ := hres.resolve_left (by simp)
  obtain rfl := Option.some.inj hm'
  have hok : m.Ok := hsent.ok hsd hg.1 (hg.2 (by rw [hp]; rfl) ht hst)
  obtain ⟨ht₂, he, hstep⟩ := rwflEffect_step htd' (hsame.kept.sound hsd) hok
  exact ⟨ht, ht', ht₂, hst, rfl, hsd, hsame, hsent, hstep, fun j => by simp [rwflObj, he]⟩

variable {junk} in
/-- What a delivery does to the list where it happens. -/
theorem rwfl_deliver {o : Fin n} {i : ℕ} {m : RwflMsg n}
    (hs : (rwflObj n junk).Reach (rwflGuard junk) s) (hl : s.log i = some (o, m)) (r : Fin n) :
    ∃ ht ht₂, s.st r = some ht ∧ Sound ht ∧ RwflStep ht ht₂ m ∧
      ((rwflObj n junk).deliver s r i m).st r = some ht₂ := by
  obtain ⟨hinv, hok⟩ := rwfl_typed hs
  obtain ⟨ht, hst, htd, hsd⟩ := hinv r
  obtain ⟨ht₂, he, hstep⟩ := rwflEffect_step htd hsd (hok i o m hl)
  exact ⟨ht, ht₂, hst, hsd, hstep, by simp [rwflObj, hst, he]⟩

variable {junk} in
/-- An invariant of the list of each replica holds in every state that a run reaches if it holds
initially, an accepted command and a delivery keep it where they happen, and it is kept where the
broadcasts received stay the same (`frame`) and only the table gets new entries (`same`). -/
theorem rwfl_rule
    {G : Sys (Fin n) (Option (RwfHt n)) (RwflMsg n) → Ev (Fin n) LCmd → Prop}
    {I : Sys (Fin n) (Option (RwfHt n)) (RwflMsg n) → Fin n → RwfHt n → Prop}
    (hs : (rwflObj n junk).Reach G s) (hG : ∀ s e, G s e → rwflGuard junk s e)
    (init : ∀ r ht, (rwflObj n junk).init r = some ht → I (rwflObj n junk).start r ht)
    (same : ∀ s q ht ht', SameList ht ht' → I s q ht → I s q ht')
    (frame : ∀ s s' q ht, (rwflObj n junk).Reach G s → s'.recv q = s.recv q →
      (∀ j x, s.log j = some x → s'.log j = some x) → I s q ht → I s' q ht)
    (issue : ∀ s r o i ht ht' ht₂ m, (rwflObj n junk).Reach G s → s.log i = none → Sound ht →
      SameList ht ht' → RwflSent r ht ht' o m → RwflStep ht' ht₂ m → I s r ht →
      I ((rwflObj n junk).issue s r i (some ht') m) r ht₂)
    (deliver : ∀ s r i o m ht ht₂, (rwflObj n junk).Reach G s → G s (.recv r i) →
      s.log i = some (o, m) → s.st r = some ht → Sound ht → RwflStep ht ht₂ m →
      (rwflObj n junk).effect r (s.st r) m = some ht₂ → I s r ht →
      I ((rwflObj n junk).deliver s r i m) r ht₂) :
    ∀ r ht, s.st r = some ht → I s r ht := by
  have hmono : ∀ {s}, (rwflObj n junk).Reach G s → (rwflObj n junk).Reach (rwflGuard junk) s :=
    fun h => h.mono hG
  refine hs.rule (I := fun s => ∀ r ht, s.st r = some ht → I s r ht) init ?_ ?_ ?_
  · intro s r o i s₁ hs ih hg hp q ht₁ hq
    obtain ⟨ht, ht', hst, rfl, -, -, -, hsame, -⟩ :=
      rwflObj_prepare_cases ((rwfl_typed (hmono hs)).1 r) (hG _ _ hg).1 hp
    refine frame s _ q ht₁ hs rfl (fun _ _ h => h) ?_
    by_cases hqr : q = r
    · subst hqr
      obtain rfl : ht' = ht₁ := by simpa using hq
      exact same s q ht ht' hsame (ih q ht hst)
    · exact ih q ht₁ (by rwa [Obj.reject_st_ne hqr] at hq)
  · intro s r o i s₁ m hs ih hg hp hl q ht₁ hq
    by_cases hqr : q = r
    · subst hqr
      obtain ⟨ht, ht', ht₂, hst, rfl, hsd, hsame, hsent, hstep, hst₂⟩ :=
        rwfl_issue (hmono hs) (hG _ _ hg) hp
      obtain rfl := Option.some.inj ((hst₂ i).symm.trans hq)
      exact issue s q o i ht ht' ht₂ m hs hl hsd hsame hsent hstep (ih q ht hst)
    · exact frame s _ q ht₁ hs (Obj.issue_recv_ne hqr)
        (fun _ _ h => Obj.issue_log_of_some hl h)
        (ih q ht₁ (by rwa [Obj.issue_st_ne hqr] at hq))
  · intro s r i o m hs ih hg hl hi q ht₁ hq
    by_cases hqr : q = r
    · subst hqr
      obtain ⟨ht, ht₂, hst, hsd, hstep, hst₂⟩ := rwfl_deliver (hmono hs) hl q
      obtain rfl := Option.some.inj (hst₂.symm.trans hq)
      exact deliver s q i o m ht ht₂ hs hg hl hst hsd hstep
        (by rwa [Obj.deliver_st_self] at hst₂) (ih q ht hst)
    · exact frame s _ q ht₁ hs (Obj.deliver_recv_ne hqr) (fun _ _ h => h)
        (ih q ht₁ (by rwa [Obj.deliver_st_ne hqr] at hq))

/-- **Convergence of metadata and attributes**: in every such run, the metadata of every element is
a function of the set of messages on it that the replica applied. -/
theorem rwfl_convergence (hs : (rwflObj n junk).Reach (rwflGuard junk) s) :
    (∀ k r, ∃ ht, s.st r = some ht ∧
      RwflClosed (rwflOn junk s k) r (ht.node k).body.toRwf) ∧
    ∀ k r q ht ht', s.st r = some ht → s.st q = some ht' →
      (rwflOn junk s k).recv r = (rwflOn junk s k).recv q →
      RwflAgree (rwflOn junk s k) r (ht.node k).body.toRwf (ht'.node k).body.toRwf := by
  have hclosed : ∀ k r, ∃ ht, s.st r = some ht ∧
      RwflClosed (rwflOn junk s k) r (ht.node k).body.toRwf := by
    intro k r
    obtain ⟨hQ, hinv, -⟩ := (rwflView junk k).reach (H := anyOrder) (fun _ _ _ _ h => h)
      (fun _ _ _ _ => trivial) (fun _ _ _ _ _ _ _ => trivial) hs
    obtain ⟨ht, hst, -⟩ := hinv r
    have := rwfObj_rwflClosed hQ r
    refine ⟨ht, hst, ?_⟩
    rwa [show ((rwflView junk k).sys s).st r = (ht.node k).body.toRwf by
      simp [View.sys, rwflView, hst, rwflEle]] at this
  refine ⟨hclosed, fun k r q ht ht' hr hq hD => ?_⟩
  obtain ⟨h₁, hh₁, hc₁⟩ := hclosed k r
  obtain ⟨h₂, hh₂, hc₂⟩ := hclosed k q
  obtain rfl : h₁ = ht := by simpa [hr] using hh₁.symm
  obtain rfl : h₂ = ht' := by simpa [hq] using hh₂.symm
  exact hc₁.agree hc₂ hD

/-- A test for `rwflGuard`. -/
def rwflGuardOk (s : Sys (Fin n) (Option (RwfHt n)) (RwflMsg n)) : Ev (Fin n) LCmd → Bool
  | .op r o _ => rwflOkOpOk (s.st r) o
  | .recv _ _ => true

theorem rwflGuard_of_ok (s : Sys (Fin n) (Option (RwfHt n)) (RwflMsg n)) (e : Ev (Fin n) LCmd)
    (h : rwflGuardOk s e = true) : rwflGuard junk s e := by
  cases e with
  | op r o i => exact rwflOkOp_of_ok h
  | recv r i => trivial

end List

/-- Two inserts and two concurrent updates of one attribute, delivered in different orders. -/
def rwflDemo : List (Ev (Fin 2) LCmd) :=
  [.op 0 (insertFront "a".toList 5) 0, .recv 1 0,
    .op 0 (.update 5 "a".toList "font".toList (some 5)) 1,
    .op 1 (.update 5 "a".toList "FONT".toList (some 7)) 2, .recv 0 2, .recv 1 1]

/-- The condition holds of a run with concurrent updates. -/
theorem rwfl_convergence_demo :
    let s := (rwflObj 2 fun _ _ _ => 0).runOf rwflDemo
    ∃ ht ht', s.st 0 = some ht ∧ s.st 1 = some ht' ∧
      RwflAgree (rwflOn (fun _ _ _ => 0) s "a".toList) 0 (ht.node "a".toList).body.toRwf
        (ht'.node "a".toList).body.toRwf := by
  have h := rwfl_convergence (fun _ _ _ => 0) (Obj.reach_runOf (rwflGuard_of_ok fun _ _ _ => 0)
    rwflDemo (by decide +kernel))
  obtain ⟨ht, hr, -⟩ := h.1 "a".toList 0
  obtain ⟨ht', hq, -⟩ := h.1 "a".toList 1
  exact ⟨ht, ht', hr, hq, h.2 "a".toList 0 1 ht ht' hr hq (by decide +kernel)⟩

/-- An update of the element `head` while the replicas have different first elements. -/
def rwflHeadRun : List (Ev (Fin 2) LCmd) :=
  [.op 0 (insertFront "a".toList 5) 0, .op 1 (insertFront "b".toList 0) 1,
    .op 0 (.update 5 "head".toList "font".toList (some 5)) 2, .recv 0 1, .recv 1 0, .recv 1 2]

/-- **A name of the table's own breaks convergence**: two replicas have applied the same messages,
in the order of each origin, and disagree on an element that no update names. -/
theorem rwfl_head_diverges : ∃ s, (rwflObj 2 fun _ _ _ => 0).Reach fifo s ∧
    s.recv 0 = s.recv 1 ∧ ∃ ht ht', s.st 0 = some ht ∧ s.st 1 = some ht' ∧
    ¬ RwflAgree (rwflOn (fun _ _ _ => 0) s "a".toList) 0 (ht.node "a".toList).body.toRwf
      (ht'.node "a".toList).body.toRwf := by
  refine ⟨(rwflObj 2 fun _ _ _ => 0).runOf rwflHeadRun,
    Obj.reach_runOf Obj.fifo_of_fifoOk _ (by decide +kernel), by decide +kernel, ?_⟩
  obtain ⟨ht, hr, hstamp⟩ := Option.map_eq_some_iff.mp (show
    (((rwflObj 2 fun _ _ _ => 0).runOf rwflHeadRun).st 0).map
      (fun ht => (ht.node "a".toList).body.stamp (.normal .font)) = some (some ⟨1, 0⟩) by
    decide +kernel)
  obtain ⟨ht', hq, hstamp'⟩ := Option.map_eq_some_iff.mp (show
    (((rwflObj 2 fun _ _ _ => 0).runOf rwflHeadRun).st 1).map
      (fun ht => (ht.node "a".toList).body.stamp (.normal .font)) = some none by
    decide +kernel)
  refine ⟨ht, ht', hr, hq, fun h => ?_⟩
  have heq : (ht.node "a".toList).body.stamp (.normal .font) =
      (ht'.node "a".toList).body.stamp (.normal .font) := congrFun h.stamp _
  rw [hstamp, hstamp'] at heq
  cases heq

end CrdtRedis
