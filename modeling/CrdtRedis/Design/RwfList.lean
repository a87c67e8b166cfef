import CrdtRedis.Design.RwfRpq
import CrdtRedis.RwfList.Attributes

/-!
# The design of the RWF list (`rwf_list.tla`)

The design gives each element one attribute. It keeps the value of the add (`v_inn`) apart from
that of the newest update (`v_acq`), and a remove resets both. The code has one field for the
attribute, which an add writes only if there is no stamp, and a remove deletes the stamp and leaves
the value. An element that does not exist is the default record, the code has two special ids.

* `Related`: how an element of the code, with `font` for the attribute, reads as the variables of
  the design.
* `Rel.add`, `Rel.update`, `Rel.remove`: the effect phases simulate the macros. For an update, no
  stamp of the epoch may be that of the message, where the code takes the new value and the design
  keeps the old one.
* `rwfl_refines_design`: along every run in which all updates are of `font`. There no two updates of
  an epoch have one stamp (`stamp_ne`), and all inserts of an element have one identifier.
* `head_not_simulated`: the name `head` leads the code to another element.

The variables are functions of the element, so `Elt` has their values at one element. Replica `r` is
process `r + 1`, and the identifiers are those of the code.
-/

namespace CrdtRedis

open Broadcast Ht

namespace RwfListDesign

open RwfRpq (Rh maxRh proc rhOf exists_lt_iff rhOf_inj maxRh_rhOf)

variable {n : ℕ}

/-! ## The design -/

/-- `v_acq`. -/
structure Acq where
  v : ℤ
  t : ℤ
  id : ℤ
  deriving DecidableEq

/-- A value of `e_set`. -/
structure Content where
  p_ini : ℤ
  v_inn : ℤ
  v_acq : Acq
  deriving DecidableEq

def nullAcq : Acq := ⟨0, -1, -1⟩

/-- `Dft_eset_content`. -/
def dftContent : Content := ⟨-1, 0, nullAcq⟩

/-- `Value`. -/
def value (c : Content) : ℤ := if c.v_acq = nullAcq then c.v_inn else c.v_acq.v

/-- `pMax`. -/
def pMax (a b : ℤ) : ℤ := if a ≤ b then b else a

/-- The variables of a process at one element; `none` is `Dft_leid`. -/
structure Elt (n : ℕ) where
  e_set : Content
  t_set : Rh n
  l_set : Option Leid
  lt_set : ℤ

def Elt.init : Elt n := ⟨dftContent, fun _ => 0, none, 0⟩

/-- The macro `Remove`. -/
def remove (rhp : Rh n) (d : Elt n) : Elt n :=
  if ∃ j, d.t_set j < rhp j then
    { d with t_set := maxRh rhp d.t_set, lt_set := 0, e_set := dftContent }
  else d

/-- The macro `Add`. -/
def add (x p_ini : ℤ) (rh : Rh n) (pos : Leid) (d : Elt n) : Elt n :=
  let d :=
    if ∃ j, d.t_set j < rh j then
      let d := { d with t_set := maxRh rh d.t_set, lt_set := 0 }
      if rh = d.t_set then { d with e_set := ⟨p_ini, x, nullAcq⟩ }
      else { d with e_set := dftContent }
    else if rh = d.t_set ∧ p_ini > d.e_set.p_ini then
      { d with e_set := ⟨p_ini, x, d.e_set.v_acq⟩ }
    else d
  { d with l_set := some pos }

/-- The macro `Update`. -/
def update (i : ℤ) (rh : Rh n) (lts : ℤ × ℤ) (d : Elt n) : Elt n :=
  if ∃ j, d.t_set j < rh j then
    let d := { d with t_set := maxRh rh d.t_set }
    if rh = d.t_set then
      { d with e_set := ⟨-1, 0, ⟨i, lts.1, lts.2⟩⟩, lt_set := pMax 0 lts.1 }
    else { d with e_set := dftContent, lt_set := 0 }
  else
    let old_acq := d.e_set.v_acq
    if rh = d.t_set ∧ (old_acq.t < lts.1 ∨ (old_acq.t = lts.1 ∧ old_acq.id < lts.2)) then
      { d with
        e_set := ⟨d.e_set.p_ini, d.e_set.v_inn, ⟨i, lts.1, lts.2⟩⟩
        lt_set := pMax d.lt_set lts.1 }
    else d

/-- The macro that a message runs: the values are those that the code assigns to the `int`. -/
def run : RwflMsg n → Elt n → Elt n
  | .insert _ _ _ args pos t =>
    add ((args.normal .font).setWidth 32).toInt (proc t.id) (rhOf t) pos
  | .update _ _ value lt t => update (value.setWidth 32).toInt (rhOf t) (lt.x, lt.id + 1)
  | .rem _ t => remove (rhOf t)

/-- What a process does with an operation. -/
def effect (m : RwflMsg n) (d : Sds → Elt n) : Sds → Elt n :=
  Function.update d m.id (run m (d m.id))

/-! ## The relation -/

abbrev font : Attr := .normal .font

/-- An element of the code, read as the variables of the design. -/
structure Related (x : Node (Rwfle n)) (d : Elt n) : Prop where
  t_set : d.t_set = rhOf x.body.header.current
  lt_set : d.lt_set = x.body.current.x
  l_set : d.l_set = x.posId
  dft : d.e_set = dftContent ↔ x.body.header.pid = PID_NEXIST
  wait : x.body.header.pid = PID_WAIT_INNATE → d.e_set.p_ini = -1
  p_ini : 0 ≤ x.body.header.pid → d.e_set.p_ini = x.body.header.pid + 1
  pid : x.body.header.pid = PID_NEXIST ∨ x.body.header.pid = PID_WAIT_INNATE ∨
    0 ≤ x.body.header.pid
  null : d.e_set.v_acq = nullAcq ↔ x.body.stamp font = none
  acq : ∀ c, x.body.stamp font = some c →
    d.e_set.v_acq = ⟨(x.body.attrs.normal .font).toInt, c.x, c.id + 1⟩
  value : x.body.header.exists = true → value d.e_set = (x.body.attrs.normal .font).toInt

/-- `Related` without the identifier, for an element of the framework. -/
structure Rel (x : RwfEle n RwflPay) (d : Elt n) : Prop where
  t_set : d.t_set = rhOf x.header.current
  lt_set : d.lt_set = x.pay.current.x
  dft : d.e_set = dftContent ↔ x.header.pid = PID_NEXIST
  wait : x.header.pid = PID_WAIT_INNATE → d.e_set.p_ini = -1
  p_ini : 0 ≤ x.header.pid → d.e_set.p_ini = x.header.pid + 1
  pid : x.header.pid = PID_NEXIST ∨ x.header.pid = PID_WAIT_INNATE ∨ 0 ≤ x.header.pid
  null : d.e_set.v_acq = nullAcq ↔ x.pay.stamp font = none
  acq : ∀ c, x.pay.stamp font = some c → d.e_set.v_acq = ⟨(x.pay.val font).toInt, c.x, c.id + 1⟩
  value : x.header.exists = true → RwfListDesign.value d.e_set = (x.pay.val font).toInt

theorem related_iff {x : Node (Rwfle n)} {d : Elt n} :
    Related x d ↔ Rel x.body.toRwf d ∧ d.l_set = x.posId := by
  constructor
  · intro h
    exact ⟨⟨h.t_set, h.lt_set, h.dft, h.wait, h.p_ini, h.pid, h.null, h.acq, h.value⟩, h.l_set⟩
  · rintro ⟨h, hl⟩
    exact ⟨h.t_set, h.lt_set, hl, h.dft, h.wait, h.p_ini, h.pid, h.null, h.acq, h.value⟩

/-! ## The effect phases -/

section Effect

variable {junk : Fin n → Normal → BitVec 32} {x : RwfEle n RwflPay} {d d' : Elt n}

namespace Rel

/-- The relation does not see the identifier. -/
theorem congr (h : Rel x d) (he : d'.e_set = d.e_set) (ht : d'.t_set = d.t_set)
    (hlt : d'.lt_set = d.lt_set) : Rel x d' := by
  obtain ⟨h₁, h₂, h₃, h₄, h₅, h₆, h₇, h₈, h₉⟩ := h
  rw [← he] at h₃ h₄ h₅ h₇ h₈ h₉
  exact ⟨ht.trans h₁, hlt.trans h₂, h₃, h₄, h₅, h₆, h₇, h₈, h₉⟩

theorem exists_lt (h : Rel x d) (t : Clock n) :
    (∃ j, d.t_set j < rhOf t j) ↔ ¬ t.vector ≤ x.header.current.vector := by
  rw [h.t_set]
  exact exists_lt_iff

theorem rh_eq (h : Rel x d) (t : Clock n) :
    rhOf t = d.t_set ↔ t.vector = x.header.current.vector := by
  rw [h.t_set, rhOf_inj]

theorem rh_joined (h : Rel x d) (t : Clock n) :
    rhOf t = maxRh (rhOf t) d.t_set ↔ t.vector = x.header.current.vector ⊔ t.vector := by
  rw [h.t_set, maxRh_rhOf, rhOf_inj, vcUpdate_vector]

/-- An id that the framework takes is one that the macro takes. -/
theorem lt_p_ini (h : Rel x d) (q : Fin n) :
    proc q > d.e_set.p_ini ↔ x.header.pid < (q : ℕ) := by
  rcases h.pid with hp | hp | hp
  · rw [h.dft.mpr hp, hp]
    simp only [proc, dftContent, PID_NEXIST]
    omega
  · rw [h.wait hp, hp]
    simp only [proc, PID_WAIT_INNATE]
    omega
  · rw [h.p_ini hp]
    simp only [proc]
    omega

/-- The start of an epoch. -/
theorem epochStart (h : Rel x d) (junk : Fin n → Normal → BitVec 32) (t : Clock n) :
    Rel (epochStart (rwflPayload n junk) x t)
      { d with t_set := maxRh (rhOf t) d.t_set, lt_set := 0, e_set := dftContent } := by
  refine ⟨?_, rfl, iff_of_true rfl rfl, fun hp => ?_, fun hp => ?_, .inl rfl, iff_of_true rfl rfl,
    fun c hc => ?_, fun hex => ?_⟩
  · rw [h.t_set, maxRh_rhOf]
    rfl
  · cases hp
  · cases hp
  · cases hc
  · cases hex

/-- An add of the epoch. -/
theorem add_epoch (h : Rel x d) (junk : Fin n → Normal → BitVec 32) (a : Attr → BitVec 32)
    (t : Clock n) :
    Rel (x.epoch (rwflPayload n junk) (.add a t))
      (if x.header.pid < (t.id : ℕ) then
        { d with e_set := ⟨proc t.id, (a font).toInt, d.e_set.v_acq⟩ }
      else d) := by
  rw [RwfEle.epoch, epochStep]
  by_cases hp : x.header.pid < (t.id : ℕ)
  · rw [if_pos hp, if_pos hp]
    have hid : ((t.id : ℕ) : ℤ) ≠ PID_NEXIST := by simp only [PID_NEXIST]; omega
    refine ⟨h.t_set, h.lt_set, iff_of_false ?_ hid, fun hw => ?_, fun _ => rfl, .inr (.inr ?_),
      h.null, fun c hc => ?_, fun _ => ?_⟩
    · intro hd
      have := congrArg Content.p_ini hd
      simp only [proc, dftContent] at this
      omega
    · simp only [PID_WAIT_INNATE] at hw
      omega
    · exact Int.natCast_nonneg _
    · -- An update keeps its value.
      have hc : x.pay.stamp font = some c := hc
      rw [h.acq c hc]
      simp [rwflPayload, RwflPay.add, hc]
    · cases hc : x.pay.stamp font with
      | none => simp [RwfListDesign.value, h.null.mpr hc, rwflPayload, RwflPay.add, hc]
      | some c =>
        have hne : d.e_set.v_acq ≠ nullAcq := fun hn => by simp [h.null.mp hn] at hc
        rw [RwfListDesign.value, if_neg hne, h.acq c hc]
        simp [rwflPayload, RwflPay.add, hc]
  · rw [if_neg hp, if_neg hp]
    exact h

/-- The test of an update: the code takes a stamp that is not below the stored one, the design one
that is above it. -/
theorem stamp_lt (h : Rel x d) {lt : Lc} (hpos : 0 ≤ lt.x)
    (hne : ∀ c, x.pay.stamp font = some c → c ≠ lt) :
    (x.pay.stamp font).all (fun c => decide (lcCmp c lt ≤ 0)) = true ↔
      d.e_set.v_acq.t < lt.x ∨ (d.e_set.v_acq.t = lt.x ∧ d.e_set.v_acq.id < lt.id + 1) := by
  cases hc : x.pay.stamp font with
  | none =>
    rw [h.null.mpr hc]
    simp only [Option.all_none, nullAcq, true_iff]
    omega
  | some c =>
    have hne := hne c hc
    rw [h.acq c hc]
    simp only [Option.all_some, decide_eq_true_eq, lcCmp_le_zero, Lc.key, Prod.Lex.toLex_le_toLex]
    have hid : c.x = lt.x → c.id ≠ lt.id := fun hx hid => hne (Lc.ext hx hid)
    omega

/-- An update makes an element without an id wait for its add. -/
theorem wait_pid (h : Rel x d) {q : ℤ}
    (hq : q = if x.header.pid = PID_NEXIST then PID_WAIT_INNATE else x.header.pid) :
    q ≠ PID_NEXIST ∧ (q = PID_WAIT_INNATE → d.e_set.p_ini = -1) ∧
      (0 ≤ q → d.e_set.p_ini = q + 1) ∧ (q = PID_WAIT_INNATE ∨ 0 ≤ q) := by
  subst hq
  by_cases hp : x.header.pid = PID_NEXIST
  · rw [if_pos hp]
    refine ⟨by decide, fun _ => ?_, fun h0 => ?_, .inl rfl⟩
    · rw [h.dft.mpr hp]
      rfl
    · cases h0
  · rw [if_neg hp]
    exact ⟨hp, h.wait, h.p_ini, h.pid.resolve_left hp⟩

/-- An update whose stamp wins. -/
theorem upd_taken (h : Rel x d) (junk : Fin n → Normal → BitVec 32) {u : AttrUpd} (t : Clock n)
    (hu : u.attr = some font) (hpos : 0 ≤ u.lt.x)
    (hs : (x.pay.stamp font).all (fun c => decide (lcCmp c u.lt ≤ 0)) = true) :
    Rel (x.epoch (rwflPayload n junk) (.upd u t))
      { d with
        e_set := ⟨d.e_set.p_ini, d.e_set.v_inn, ⟨u.value.toInt, u.lt.x, u.lt.id + 1⟩⟩
        lt_set := pMax d.lt_set u.lt.x } := by
  have hpay : (rwflPayload n junk).upd u x.pay =
      { current := lcUpdate x.pay.current u.lt
        stamp := Function.update x.pay.stamp font (some u.lt)
        val := Function.update x.pay.val font u.value } := by
    simp only [rwflPayload, RwflPay.upd, hu, if_pos hs]
  simp only [RwfEle.epoch, epochStep, hpay]
  have hnn : (⟨u.value.toInt, u.lt.x, u.lt.id + 1⟩ : Acq) ≠ nullAcq := fun hn => by
    have := congrArg Acq.t hn
    simp only [nullAcq] at this
    omega
  obtain ⟨hex, hwait, hini, hpid⟩ := h.wait_pid rfl
  refine ⟨h.t_set, ?_, iff_of_false ?_ hex, hwait, hini, .inr hpid, ?_, fun c hc => ?_,
    fun _ => ?_⟩
  · simp only [h.lt_set, lcUpdate_x, pMax]
    split <;> omega
  · exact fun hd => hnn (congrArg Content.v_acq hd)
  · simp [hnn]
  · simp only [Function.update_self, Option.some.injEq] at hc
    subst hc
    simp
  · rw [RwfListDesign.value, if_neg hnn]
    simp

/-- An update whose stamp does not win: a stamp is stored, so the element exists. -/
theorem upd_stale (h : Rel x d) (junk : Fin n → Normal → BitVec 32) {u : AttrUpd} (t : Clock n)
    (hu : u.attr = some font)
    (hs : ¬ (x.pay.stamp font).all (fun c => decide (lcCmp c u.lt ≤ 0)) = true) :
    x.epoch (rwflPayload n junk) (.upd u t) = x := by
  have hpay : (rwflPayload n junk).upd u x.pay = x.pay := by
    simp only [rwflPayload, RwflPay.upd, hu, if_neg hs]
  have hex : x.header.pid ≠ PID_NEXIST := fun hp => by
    have := h.null.mp (by rw [h.dft.mpr hp]; rfl)
    simp [this] at hs
  simp only [RwfEle.epoch, epochStep, hpay, if_neg hex]

/-- An update of the epoch. -/
theorem upd_epoch (h : Rel x d) (junk : Fin n → Normal → BitVec 32) {u : AttrUpd} (t : Clock n)
    (hu : u.attr = some font) (hpos : 0 ≤ u.lt.x)
    (hne : ∀ c, x.pay.stamp font = some c → c ≠ u.lt) :
    Rel (x.epoch (rwflPayload n junk) (.upd u t))
      (if d.e_set.v_acq.t < u.lt.x ∨
          (d.e_set.v_acq.t = u.lt.x ∧ d.e_set.v_acq.id < u.lt.id + 1) then
        { d with
          e_set := ⟨d.e_set.p_ini, d.e_set.v_inn, ⟨u.value.toInt, u.lt.x, u.lt.id + 1⟩⟩
          lt_set := pMax d.lt_set u.lt.x }
      else d) := by
  have htest := h.stamp_lt hpos hne
  by_cases hs : (x.pay.stamp font).all (fun c => decide (lcCmp c u.lt ≤ 0)) = true
  · rw [if_pos (htest.mp hs)]
    exact h.upd_taken junk t hu hpos hs
  · rw [if_neg (mt htest.mpr hs), h.upd_stale junk t hu hs]
    exact h

theorem remove (h : Rel x d) (t : Clock n) :
    Rel (rwfEffect (rwflPayload n junk) x (.rem t)) (remove (rhOf t) d) := by
  by_cases hle : t.vector ≤ x.header.current.vector
  · rw [rwfEffect_of_le (m := .rem t) hle, RwfListDesign.remove,
      if_neg (mt (h.exists_lt t).mp (not_not.mpr hle))]
    split <;> exact h
  · rw [rwfEffect_of_not_le (m := .rem t) hle, RwfListDesign.remove,
      if_pos ((h.exists_lt t).mpr hle)]
    split <;> exact h.epochStart junk t

theorem add (h : Rel x d) (a : Attr → BitVec 32) (t : Clock n) (pos : Leid) :
    Rel (rwfEffect (rwflPayload n junk) x (.add a t))
      (add (a font).toInt (proc t.id) (rhOf t) pos d) := by
  refine Rel.congr (d := { RwfListDesign.add (a font).toInt (proc t.id) (rhOf t) pos d with
    l_set := d.l_set }) ?_ rfl rfl rfl
  by_cases hle : t.vector ≤ x.header.current.vector
  · rw [rwfEffect_of_le (m := .add a t) hle]
    simp only [RwfListDesign.add, if_neg (mt (h.exists_lt t).mp (not_not.mpr hle)), h.rh_eq,
      h.lt_p_ini, RwfMsg.t]
    have hepoch := h.add_epoch junk a t
    by_cases heq : t.vector = x.header.current.vector
    · simp only [heq, true_and]
      split at hepoch <;> rename_i hp <;> simpa only [hp, if_true, if_false] using hepoch
    · simp only [heq, false_and, if_false]
      exact h
  · rw [rwfEffect_of_not_le (m := .add a t) hle]
    have hstart := h.epochStart junk t
    split <;> rename_i heq
    · have hp : PID_NEXIST < ((t.id : ℕ) : ℤ) := by simp only [PID_NEXIST]; omega
      have hepoch := hstart.add_epoch junk a t
      rw [if_pos (show (CrdtRedis.epochStart (rwflPayload n junk) x t).header.pid < _ from hp)]
        at hepoch
      simp only [RwfListDesign.add, if_pos ((h.exists_lt t).mpr hle),
        if_pos ((h.rh_joined t).mpr heq)]
      exact hepoch
    · simp only [RwfListDesign.add, if_pos ((h.exists_lt t).mpr hle),
        if_neg (mt (h.rh_joined t).mp heq)]
      exact hstart

theorem update (h : Rel x d) {u : AttrUpd} (t : Clock n) (hu : u.attr = some font)
    (hpos : 0 ≤ u.lt.x) (hne : t.vector = x.header.current.vector →
      ∀ c, x.pay.stamp font = some c → c ≠ u.lt) :
    Rel (rwfEffect (rwflPayload n junk) x (.upd u t))
      (update u.value.toInt (rhOf t) (u.lt.x, u.lt.id + 1) d) := by
  by_cases hle : t.vector ≤ x.header.current.vector
  · rw [rwfEffect_of_le (m := .upd u t) hle]
    simp only [RwfListDesign.update, if_neg (mt (h.exists_lt t).mp (not_not.mpr hle)), h.rh_eq,
      RwfMsg.t]
    by_cases heq : t.vector = x.header.current.vector
    · simp only [heq, true_and]
      exact h.upd_epoch junk t hu hpos (hne heq)
    · simp only [heq, false_and, if_false]
      exact h
  · rw [rwfEffect_of_not_le (m := .upd u t) hle]
    have hstart := h.epochStart junk t
    split <;> rename_i heq
    · have hepoch := hstart.upd_epoch junk t hu hpos fun c hc => by cases hc
      rw [if_pos (.inl (show (-1 : ℤ) < u.lt.x by omega))] at hepoch
      simp only [RwfListDesign.update, if_pos ((h.exists_lt t).mpr hle),
        if_pos ((h.rh_joined t).mpr heq)]
      exact hepoch
    · simp only [RwfListDesign.update, if_pos ((h.exists_lt t).mpr hle),
        if_neg (mt (h.rh_joined t).mp heq)]
      exact hstart

end Rel

end Effect

/-! ## Messages of a run -/

/-- A message that can be applied next to an element: an update of `font`, with a stamp that is not
stored in its epoch, and an insert with the identifier that the element has. -/
structure Fits (m : RwflMsg n) (x : Node (Rwfle n)) : Prop where
  update : ∀ id type value lt t, m = .update id type value lt t → attrOf type = some font ∧
    0 ≤ lt.x ∧ (t.vector = x.body.header.current.vector → ∀ c, x.body.stamp font = some c → c ≠ lt)
  insert : ∀ y p, m.ins = some y → x.posId = some p → p = y.pos

/-- **An effect phase simulates its macro.** -/
theorem Rel.run {x : Node (Rwfle n)} {m : RwflMsg n} {d : Elt n} (h : Rel x.body.toRwf d)
    (hm : Fits m x) : Rel (x.body.apply m).toRwf (run m d) := by
  rw [show (x.body.apply m).toRwf = rwfEffect (rwflPayload n fun _ _ => 0) x.body.toRwf m.toRwf from
    apply_toRwf x.body m]
  cases m with
  | insert prev id content args pos t => exact h.add args.get t pos
  | update id type value lt t =>
    obtain ⟨hfont, hpos, hne⟩ := hm.update id type value lt t rfl
    have hu : updValue type value = (some font, value.setWidth 32) := by
      simp [updValue, hfont, Attr.written]
    simp only [RwflMsg.toRwf, hu]
    exact h.update (u := ⟨some font, value.setWidth 32, lt⟩) t rfl hpos hne
  | rem id t => exact h.remove t

theorem RwflStep.posId_of_ne {ht ht' : RwfHt n} {m : RwflMsg n} {k : Sds} (h : RwflStep ht ht' m)
    (hk : k ≠ m.id) : (ht'.node k).posId = (ht.node k).posId := by
  cases m with
  | insert prev id content args pos t =>
    cases hoid : (ht.node id).oid with
    | some o => exact (h.place.1 (by simp [hoid])).posId k
    | none =>
      have := congrFun (h.place.2 hoid).posId k
      simpa [Function.update_of_ne (show k ≠ id from hk)] using this
  | update id type value lt t => exact Kept.posId h.place k
  | rem id t => exact Kept.posId h.place k

/-- The identifier after the message is that of the design. -/
theorem l_set_run {ht ht' : RwfHt n} {m : RwflMsg n} {d : Elt n} (h : RwflStep ht ht' m)
    (hs : Sound ht) (hm : Fits m (ht.node m.id)) (hl : d.l_set = (ht.node m.id).posId) :
    (run m d).l_set = (ht'.node m.id).posId := by
  cases m with
  | insert prev id content args pos t =>
    show some pos = (ht'.node id).posId
    cases hoid : (ht.node id).oid with
    | none =>
      have : (ht'.node id).posId = _ := congrFun (h.place.2 hoid).posId id
      simpa using this.symm
    | some o =>
      have hsome : (ht.node id).posId.isSome := by rw [← hs.oid, hoid]; rfl
      obtain ⟨p, hp⟩ := Option.isSome_iff_exists.mp hsome
      have hkept : (ht'.node id).posId = (ht.node id).posId := (h.place.1 (by simp [hoid])).posId id
      rw [hkept, hp, hm.insert ⟨prev, id, pos⟩ p rfl hp]
  | update id type value lt t =>
    have hkept : (ht'.node id).posId = (ht.node id).posId := Kept.posId h.place id
    rw [RwflMsg.id, hkept, ← show d.l_set = (ht.node id).posId from hl]
    simp only [run, RwfListDesign.update]
    split <;> split <;> rfl
  | rem id t =>
    have hkept : (ht'.node id).posId = (ht.node id).posId := Kept.posId h.place id
    rw [RwflMsg.id, hkept, ← show d.l_set = (ht.node id).posId from hl]
    simp only [run, RwfListDesign.remove]
    split <;> rfl

/-- All elements after a message. -/
theorem related_effect {ht ht' : RwfHt n} {m : RwflMsg n} {d : Sds → Elt n}
    (h : ∀ k, Related (ht.node k) (d k)) (hs : Sound ht) (hstep : RwflStep ht ht' m)
    (hm : Fits m (ht.node m.id)) (k : Sds) : Related (ht'.node k) (effect m d k) := by
  by_cases hk : k = m.id
  · subst hk
    obtain ⟨hrel, hl⟩ := related_iff.mp (h m.id)
    rw [effect, Function.update_self]
    refine related_iff.mpr ⟨?_, l_set_run hstep hs hm hl⟩
    rw [hstep.body, if_pos rfl]
    exact hrel.run hm
  · rw [effect, Function.update_of_ne hk]
    obtain ⟨hrel, hl⟩ := related_iff.mp (h k)
    refine related_iff.mpr ⟨?_, by rw [RwflStep.posId_of_ne hstep hk]; exact hl⟩
    rw [hstep.body, if_neg hk]
    exact hrel

/-! ## Runs -/

section Runs

variable (junk : Fin n → Sds → Normal → BitVec 32)

/-- Runs whose updates are all of `font`. -/
def FontOnly : Ev (Fin n) LCmd → Prop
  | .op _ (.update _ _ type _) _ => attrOf type = some font
  | _ => True

/-- Runs as in `rwflListGuard`, whose updates are all of `font`. -/
def rwflFontGuard (s : Sys (Fin n) (Option (RwfHt n)) (RwflMsg n)) (e : Ev (Fin n) LCmd) : Prop :=
  rwflListGuard junk s e ∧ FontOnly e

variable {junk} {s s' : Sys (Fin n) (Option (RwfHt n)) (RwflMsg n)} {r o : Fin n} {i : ℕ}

theorem reach_list (hs : (rwflObj n junk).Reach (rwflFontGuard junk) s) :
    (rwflObj n junk).Reach (rwflListGuard junk) s := hs.mono fun _ _ h => h.1

theorem reach_guard (hs : (rwflObj n junk).Reach (rwflFontGuard junk) s) :
    (rwflObj n junk).Reach (rwflGuard junk) s := hs.mono fun _ _ h => h.1.1

/-- The updates of a run are of `font`. -/
theorem log_font (hs : (rwflObj n junk).Reach (rwflFontGuard junk) s) :
    ∀ i o id type value lt t, s.log i = some (o, .update id type value lt t) →
      attrOf type = some font := by
  have h := hs.msg_rule (Q := fun _ (m : RwflMsg n) =>
    ∀ id type value lt t, m = .update id type value lt t → attrOf type = some font) ?_
  · exact fun i o id type value lt t hi => h i o _ hi id type value lt t rfl
  · rintro s r c i s₁ m hs hg hp id type value lt t rfl
    obtain ⟨ht, ht', -, -, -, -, -, hsent, -⟩ := rwfl_issue (reach_guard hs) hg.1.1 hp
    cases hsent with
    | update hex hclock => exact (attrOf_sdstolower _).trans hg.2

/-- The element in the framework. -/
theorem reach_on (hs : (rwflObj n junk).Reach (rwflFontGuard junk) s) (k : Sds) :
    (rwfObj (rwflPayload n fun r => junk r k)).Reach anyOrder (rwflOn junk s k) :=
  ((rwflView junk k).reach (H := anyOrder) (fun _ _ _ _ h => h) (fun _ _ _ _ => trivial)
    (fun _ _ _ _ _ _ _ => trivial) (reach_guard hs)).1

/-- A message as one of the framework. -/
theorem rwflOn_log_of {m : RwflMsg n} {k : Sds} (h : s.log i = some (o, m)) (hk : m.id = k) :
    (rwflOn junk s k).log i = some (o, m.toRwf) :=
  (rwflView junk k).sys_log h (if_pos hk)

/-- **No stamp of the epoch is that of an update that was not received.** -/
theorem stamp_ne {k type : Sds} {value : BitVec 64} {lt c : Lc} {t : Clock n} {ht : RwfHt n}
    (hs : (rwflObj n junk).Reach (rwflFontGuard junk) s)
    (hs' : (rwflObj n junk).Reach (rwflFontGuard junk) s')
    (hlog : ∀ j x, s.log j = some x → s'.log j = some x)
    (hi : s'.log i = some (o, .update k type value lt t)) (hn : i ∉ s.recv r)
    (hst : s.st r = some ht) (ht' : t.vector = (ht.node k).body.header.current.vector)
    (hc : (ht.node k).body.stamp font = some c) : c ≠ lt := by
  rintro rfl
  obtain ⟨ht₁, hst₁, hcl⟩ := (rwfl_convergence junk (reach_guard hs)).1 k r
  obtain rfl := Option.some.inj (hst₁.symm.trans hst)
  have hcur : (ht₁.node k).body.header.current.vector = rwfJoin (rwflOn junk s k) r :=
    hcl.header.current
  -- The stamp is that of an update which was received.
  by_cases hu : ∃ j u, UpdAt (rwflOn junk s k) r j u ∧ u.attr = some font
  · obtain ⟨j, u, hj⟩ := exists_newestAt hu
    have hlt : u.lt = c := Option.some.inj ((hcl.stamp font j u hj).1.symm.trans hc)
    obtain ⟨⟨hmem, o', t', hl, hv⟩, hfont, -⟩ := hj
    obtain ⟨m, hlm, hk, hm⟩ := rwflOn_log hl
    have hi₁ : (rwflOn junk s' k).log i =
        some (o, .upd ⟨(updValue type value).1, (updValue type value).2, c⟩ t) :=
      rwflOn_log_of hi rfl
    have hj₁ : (rwflOn junk s' k).log j = some (o', .upd u t') :=
      hm ▸ rwflOn_log_of (hlog j _ hlm) hk
    have hon := reach_on hs' k
    obtain rfl : o = o' := by
      have h₁ := (upd_stamp_origin hon i o _ t hi₁).1
      have h₂ := (upd_stamp_origin hon j o' u t' hj₁).1
      rw [hlt] at h₂
      exact Fin.ext (by simp only at h₁; omega)
    have hattr : ((updValue type value).1).isSome := by
      rw [show (updValue type value).1 = attrOf type from rfl, log_font hs' i o _ _ _ _ _ hi]
      rfl
    obtain rfl := upd_stamp_unique hon i j o _ u t t' hi₁ hj₁ hattr (by simp [hfont])
      (ht'.trans (hcur.trans hv.symm)) (by rw [hlt])
    exact hn ((rwflView junk k).mem_sys_recv.mp hmem).1
  · have := hcl.stamp_none font fun j u hj hf => hu ⟨j, u, hj, hf⟩
    rw [show (ht₁.node k).body.toRwf.pay.stamp font = some c from hc] at this
    cases this

/-- The messages of a run fit the elements of the replicas that have not received them. -/
theorem fits {m : RwflMsg n} {ht : RwfHt n}
    (hs : (rwflObj n junk).Reach (rwflFontGuard junk) s)
    (hs' : (rwflObj n junk).Reach (rwflFontGuard junk) s')
    (hlog : ∀ j x, s.log j = some x → s'.log j = some x) (hi : s'.log i = some (o, m))
    (hn : i ∉ s.recv r) (hst : s.st r = some ht) : Fits m (ht.node m.id) := by
  constructor
  · rintro id type value lt t rfl
    have hpos := (upd_stamp_origin (reach_on hs' id) i o _ t (rwflOn_log_of hi rfl)).2
    exact ⟨log_font hs' i o _ _ _ _ _ hi, hpos.le,
      fun ht' c hc => stamp_ne hs hs' hlog hi hn hst ht' hc⟩
  · intro y p hy hp
    obtain ⟨z, ⟨j, o', m', hj, hz⟩, hid, rfl⟩ :=
      ((rwfl_places (reach_list hs)).list r ht hst).1.placed _ p hp
    have hyid : y.id = m.id := by
      cases m with
      | insert prev id content args pos t =>
        cases hy
        rfl
      | update id type value lt t => cases hy
      | rem id t => cases hy
    exact (rwfl_places (reach_list hs')).log.once z y ⟨j, o', m', hlog j _ hj, hz⟩ ⟨i, o, m, hi, hy⟩
      (hid.trans hyid.symm)

/-- All elements of all replicas are related. -/
def AllRelated (s : Sys (Fin n) (Option (RwfHt n)) (RwflMsg n)) (d : Fin n → Sds → Elt n) : Prop :=
  ∀ r, ∃ ht, s.st r = some ht ∧ ∀ k, Related (ht.node k) (d r k)

theorem AllRelated.start : AllRelated (rwflObj n junk).start fun _ _ => Elt.init := by
  intro r
  refine ⟨_, rfl, fun k => ⟨rfl, rfl, rfl, iff_of_true rfl rfl, fun hp => ?_, fun hp => ?_,
    .inl rfl, iff_of_true rfl rfl, fun c hc => ?_, fun hex => ?_⟩⟩
  · cases hp
  · cases hp
  · cases hc
  · cases hex

/-- One replica applies a message. -/
theorem AllRelated.next {d : Fin n → Sds → Elt n} {ht ht₂ : RwfHt n} {m : RwflMsg n}
    (h : AllRelated s d) (hr : ∀ k, Related (ht.node k) (d r k)) (hsd : Sound ht)
    (hstep : RwflStep ht ht₂ m) (hm : Fits m (ht.node m.id)) (hst : s'.st r = some ht₂)
    (hst' : ∀ q, q ≠ r → s'.st q = s.st q) :
    AllRelated s' (Function.update d r (effect m (d r))) := by
  intro q
  by_cases hq : q = r
  · subst hq
    rw [Function.update_self]
    exact ⟨ht₂, hst, related_effect hr hsd hstep hm⟩
  · rw [hst' q hq, Function.update_of_ne hq]
    exact h q

/-- **One event keeps the relation.** -/
theorem AllRelated.follow {d d' : Fin n → Sds → Elt n}
    (hs : (rwflObj n junk).Reach (rwflFontGuard junk) s)
    (hf : Follow (rwflObj n junk) (rwflFontGuard junk) effect s d s' d') (h : AllRelated s d) :
    AllRelated s' d' := by
  have hs' : (rwflObj n junk).Reach (rwflFontGuard junk) s' := by
    obtain ⟨e, hg, hstep⟩ := hf.step
    exact .step e hs hg hstep
  cases hf with
  | @reject r o i s₁ hg hp =>
    obtain ⟨ht, ht', hst, rfl, -, -, -, hsame, -⟩ :=
      rwflObj_prepare_cases ((rwfl_typed (reach_guard hs)).1 r) hg.1.1.1 hp
    intro q
    by_cases hq : q = r
    · subst hq
      obtain ⟨ht₁, hst₁, hrel⟩ := h q
      obtain rfl := Option.some.inj (hst₁.symm.trans hst)
      exact ⟨ht', Obj.reject_st_self, fun k => by rw [hsame.node]; exact hrel k⟩
    · rw [Obj.reject_st_ne hq]
      exact h q
  | @issue r o i s₁ m hg hp hl =>
    obtain ⟨ht, ht', ht₂, hst, rfl, hsd, hsame, -, hstep, hst₂⟩ :=
      rwfl_issue (reach_guard hs) hg.1.1 hp
    obtain ⟨ht₁, hst₁, hrel⟩ := h r
    obtain rfl := Option.some.inj (hst₁.symm.trans hst)
    have hn := hs.wf.notMem_recv hl r
    have hfits := fits hs hs' (fun _ _ hj => Obj.issue_log_of_some hl hj) Obj.issue_log_self hn hst
    have hnode : ht₁.node = ht'.node := hsame.node.symm
    rw [hnode] at hfits hrel
    exact h.next hrel (hsame.kept.sound hsd) hstep hfits (hst₂ i) fun q hq => Obj.issue_st_ne hq
  | @deliver r o i m hg hl hi =>
    obtain ⟨ht, ht₂, hst, hsd, hstep, hst₂⟩ := rwfl_deliver (reach_guard hs) hl r
    obtain ⟨ht₁, hst₁, hrel⟩ := h r
    obtain rfl := Option.some.inj (hst₁.symm.trans hst)
    exact h.next hrel hsd hstep (fits hs hs' (fun _ _ hj => hj) hl hi hst) hst₂ fun q hq =>
      Obj.deliver_st_ne hq

variable (junk) in
/-- **The effect phases refine the design on one attribute**: in every run whose updates are all of
`font`, whose fresh inserts name new elements and find room for their identifiers, where no name is
one of the table's own, `null` or `readd`, and every order of delivery. The initial states are
related; every event takes related states to related ones, where the processes run the
macros of the messages that the replicas apply; so a run can be followed to its end. -/
theorem rwfl_refines_design :
    AllRelated (rwflObj n junk).start (fun _ _ => Elt.init) ∧
    (∀ s d s' d', (rwflObj n junk).Reach (rwflFontGuard junk) s →
      Follow (rwflObj n junk) (rwflFontGuard junk) effect s d s' d' → AllRelated s d →
      AllRelated s' d') ∧
    ∀ s, (rwflObj n junk).Reach (rwflFontGuard junk) s →
      ∃ d, Follows (rwflObj n junk) (rwflFontGuard junk) effect (fun _ _ => Elt.init) s d ∧
        AllRelated s d :=
  ⟨.start, fun _ _ _ _ hs hf h => h.follow hs hf,
    fun _ hs => Follows.run hs .start fun _ _ _ _ hs hf h => h.follow hs hf⟩

end Runs

/-! ## Concrete runs -/

/-- A test for `rwflFontGuard`. -/
def rwflFontGuardOk (junk : Fin n → Sds → Normal → BitVec 32)
    (s : Sys (Fin n) (Option (RwfHt n)) (RwflMsg n)) (e : Ev (Fin n) LCmd) : Bool :=
  rwflListGuardOk junk s e &&
    match e with
    | .op _ (.update _ _ type _) _ => attrOf type == some font
    | _ => true

theorem rwflFontGuard_of_ok (junk : Fin n → Sds → Normal → BitVec 32)
    (s : Sys (Fin n) (Option (RwfHt n)) (RwflMsg n)) (e : Ev (Fin n) LCmd)
    (h : rwflFontGuardOk junk s e = true) : rwflFontGuard junk s e := by
  obtain ⟨hl, hf⟩ := Bool.and_eq_true_iff.mp h
  refine ⟨rwflListGuard_of_ok junk s e hl, ?_⟩
  cases e with
  | recv r i => trivial
  | op r o i =>
    cases o with
    | update argc id type value => exact beq_iff_eq.mp hf
    | insert argc prev id content font size color property rand => trivial
    | rem argc id => trivial

/-- An update of a removed element arrives after the element was added again. -/
def demo : List (Ev (Fin 2) LCmd) :=
  let a : Sds := "a".toList
  [.op 0 (insertFront a 5) 0, .recv 1 0, .op 1 (.update 5 a "Font".toList (some 7)) 1,
    .op 0 (.rem 3 a) 2,
    .op 0 (.insert 9 "readd".toList a "d".toList (some 2) (some 2) (some 2) (some 0) 0) 3,
    .recv 0 1, .recv 1 3]

theorem rwfl_refines_design_demo :
    let s := (rwflObj 2 fun _ _ _ => 0).runOf demo
    ∃ d, Follows (rwflObj 2 fun _ _ _ => 0) (rwflFontGuard fun _ _ _ => 0) effect
      (fun _ _ => Elt.init) s d ∧ AllRelated s d :=
  (rwfl_refines_design fun _ _ _ => 0).2.2 _
    (Obj.reach_runOf (rwflFontGuard_of_ok _) demo (by decide +kernel))

/-- Whether the element exists, and its font. -/
def shownFont (k : Sds) (ht : RwfHt n) : Bool × BitVec 32 :=
  ((ht.node k).body.header.exists, (ht.node k).body.attrs.normal .font)

theorem value_of_allRelated {s : Sys (Fin n) (Option (RwfHt n)) (RwflMsg n)} {r : Fin n}
    {d : Fin n → Sds → Elt n} (h : AllRelated s d) {k : Sds} {v : BitVec 32}
    (hv : (s.st r).map (shownFont k) = some (true, v)) : value (d r k).e_set = v.toInt := by
  obtain ⟨ht, hst, hrel⟩ := h r
  rw [hst, Option.map_some, Option.some.injEq, shownFont, Prod.mk.injEq] at hv
  rw [(hrel k).value hv.1, hv.2]

/-- **The name `head` leads to another element**: an update of the font of `head` changes that of
the first element, `a`, which the design leaves as it is. -/
theorem head_not_simulated :
    let P := rwflObj 1 fun _ _ _ => 0
    ∃ s d s' d', P.Reach (rwflFontGuard fun _ _ _ => 0) s ∧ AllRelated s d ∧
      Follow P (fun _ e => FontOnly e) effect s d s' d' ∧ ¬ AllRelated s' d' := by
  intro P
  let a : Sds := "a".toList
  let o : LCmd := .update 5 headKey "font".toList (some 5)
  let s := P.runOf [.op 0 (insertFront a 0) 0]
  have hs : P.Reach (rwflFontGuard fun _ _ _ => 0) s :=
    Obj.reach_runOf (rwflFontGuard_of_ok _) _ (by decide +kernel)
  obtain ⟨d, -, hrel⟩ := Follows.run hs .start fun _ _ _ _ hs hf h => AllRelated.follow hs hf h
  rcases hp : P.prepare 0 (s.st 0) o with ⟨x, m⟩
  have hid : (P.prepare 0 (s.st 0) o).2.map RwflMsg.id = some headKey := by decide +kernel
  have hafter : (P.prepare 0 (s.st 0) o).2.bind (fun m =>
      (P.effect 0 (P.prepare 0 (s.st 0) o).1 m).map (shownFont a)) = some (true, 5) := by
    decide +kernel
  rw [hp] at hid hafter
  obtain ⟨m, rfl, hm⟩ := Option.map_eq_some_iff.mp hid
  refine ⟨s, d, _, _, hs, hrel, .issue (i := 1) (o := o) ?_ hp (by decide +kernel), fun h => ?_⟩
  · show attrOf "font".toList = some font
    decide
  · have hbefore := value_of_allRelated (r := 0) (k := a) (v := 1) hrel (by decide +kernel)
    have hvalue := value_of_allRelated (r := 0) (k := a) (v := 5) h (by
      rw [Obj.issue_st_self]
      exact hafter)
    have hne : a ≠ m.id := by
      rw [hm]
      decide
    rw [Function.update_self, effect, Function.update_of_ne hne, hbefore] at hvalue
    exact absurd hvalue (by decide)

end RwfListDesign

end CrdtRedis
