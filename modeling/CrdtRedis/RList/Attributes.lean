import CrdtRedis.RList.Convergence

/-!
# Attributes of the Remove-Win list

An attribute of an entry of `aset` is a register: the insert writes it first, and every update above
the insert writes it or is rejected. The register has one clock. A write that is accepted is joined
to this clock and gives it its id, so the clock can be above the write that is shown. A write that
is above the shown one may then be rejected.

* `Loses`: a write loses to one that is above it, and to a concurrent one of a greater origin.
* `Register.cmp`: among writes without a `Clash` the comparison with the joined clock is that of
  `Loses` with the write that is shown, so the register shows the write that no other one beats.
* `rl_attributes`: replicas that applied the same operations then show the same attributes.
* `rl_attribute_diverges`: with a clash they do not.
-/

namespace CrdtRedis

open Broadcast

variable {n : ℕ}

/-! ## The register -/

def Concurrent (a b : Clock n) : Prop := ¬ a.vector ≤ b.vector ∧ ¬ b.vector ≤ a.vector

/-- A write with clock `a` gives way to one with clock `b`. -/
def Loses (a b : Clock n) : Prop := a.vector < b.vector ∨ (Concurrent a b ∧ a.id < b.id)

/-- Write `x` is concurrent with `w` and with `t` above it, and loses to `w`; the origin of `t` is
not greater than that of `w`. -/
def Clash (w t x : Clock n) : Prop :=
  w.vector < t.vector ∧ Concurrent x w ∧ Concurrent x t ∧ x.id < w.id ∧ t.id ≤ w.id

/-- The writes of a register. -/
structure Writes (U : Clock n → Prop) : Prop where
  past : ∀ a b, U a → U b → a.vector a.id ≤ b.vector a.id → a.vector ≤ b.vector
  inj : ∀ a b, U a → U b → a.vector = b.vector → a = b
  noClash : ∀ w t x, U w → U t → U x → ¬ Clash w t x

section Register

variable {U : Clock n → Prop} {a b c : Clock n}

theorem Concurrent.symm (h : Concurrent a b) : Concurrent b a := ⟨h.2, h.1⟩

theorem Loses.asymm (h : Loses a b) : ¬ Loses b a := by
  rintro (h' | ⟨hc, hid⟩)
  · rcases h with h | ⟨hc, -⟩
    · exact h.asymm h'
    · exact hc.2 h'.le
  · rcases h with h | ⟨-, hid'⟩
    · exact hc.2 h.le
    · exact hid.asymm hid'

/-- Two writes are ordered, or concurrent with different origins. -/
theorem Writes.cases (h : Writes U) (ha : U a) (hb : U b) :
    a = b ∨ a.vector < b.vector ∨ b.vector < a.vector ∨ (Concurrent a b ∧ a.id ≠ b.id) := by
  by_cases hab : a.vector ≤ b.vector
  · rcases hab.eq_or_lt with heq | hlt
    · exact .inl (h.inj a b ha hb heq)
    · exact .inr (.inl hlt)
  · by_cases hba : b.vector ≤ a.vector
    · exact .inr (.inr (.inl (lt_of_le_not_ge hba hab)))
    · refine .inr (.inr (.inr ⟨⟨hab, hba⟩, fun hid => ?_⟩))
      rcases le_total (a.vector a.id) (b.vector a.id) with hle | hle
      · exact hab (h.past a b ha hb hle)
      · exact hba (h.past b a hb ha (hid ▸ hle))

theorem Writes.total (h : Writes U) (ha : U a) (hb : U b) (hne : a ≠ b) :
    Loses a b ∨ Loses b a := by
  rcases h.cases ha hb with heq | hlt | hgt | ⟨hc, hid⟩
  · exact absurd heq hne
  · exact .inl (.inl hlt)
  · exact .inr (.inl hgt)
  · rcases lt_or_gt_of_ne hid with hid | hid
    · exact .inl (.inr ⟨hc, hid⟩)
    · exact .inr (.inr ⟨hc.symm, hid⟩)

/-- Without a clash, `Loses` is transitive. -/
theorem Writes.trans (h : Writes U) (ha : U a) (hb : U b) (hc : U c) (hab : Loses a b)
    (hbc : Loses b c) : Loses a c := by
  have hne : a ≠ c := by rintro rfl; exact hab.asymm hbc
  refine (h.total ha hc hne).resolve_right fun hca => ?_
  -- The three would beat each other in a circle, and two of them are ordered.
  rcases hab with hab | ⟨hab, hab'⟩
  · rcases hbc with hbc | ⟨hbc, hbc'⟩
    · exact Loses.asymm (.inl (hab.trans hbc)) hca
    · rcases hca with hca | ⟨hca, hca'⟩
      · exact hbc.2 (hca.trans hab).le
      · exact h.noClash a b c ha hb hc ⟨hab, hca, hbc.symm, hca', (hbc'.trans hca').le⟩
  · rcases hbc with hbc | ⟨hbc, hbc'⟩
    · rcases hca with hca | ⟨hca, hca'⟩
      · exact hab.2 (hbc.trans hca).le
      · exact h.noClash b c a hb hc ha ⟨hbc, hab, hca.symm, hab', (hca'.trans hab').le⟩
    · rcases hca with hca | ⟨-, hca'⟩
      · exact h.noClash c a b hc ha hb ⟨hca, hbc, hab.symm, hbc', (hab'.trans hbc').le⟩
      · exact absurd (hab'.trans hbc') hca'.asymm

/-- After the writes `l` the register has the clock `st`, the join of some of them, and shows `w`,
which beats the others. -/
structure Register (l : List (Clock n)) (st w : Clock n) : Prop where
  mem : w ∈ l
  beats : ∀ x ∈ l, x = w ∨ Loses x w
  id : st.id = w.id
  join : ∃ W : Finset (Clock n), w ∈ W ∧ (∀ x ∈ W, x ∈ l) ∧ st.vector = W.sup Vc.vector

variable {l : List (Clock n)} {st w t : Clock n}

theorem Register.first (c : Clock n) : Register [c] c c :=
  ⟨by simp, by simp, rfl, {c}, by simp, by simp, by simp⟩

theorem Register.le (h : Register l st w) : w.vector ≤ st.vector := by
  obtain ⟨W, hw, -, hst⟩ := h.join
  rw [hst]
  exact Finset.le_sup (f := Vc.vector) hw

/-- A write that is new is not below the clock. -/
theorem Register.not_le (hU : Writes U) (h : Register l st w) (hl : ∀ x ∈ l, U x) (ht : U t)
    (hnew : ∀ x ∈ l, ¬ t.vector ≤ x.vector) : ¬ t.vector ≤ st.vector := by
  obtain ⟨W, hw, hW, hst⟩ := h.join
  have hlt : ∀ x ∈ W, x.vector t.id < t.vector t.id := fun x hx => by
    by_contra hle
    exact hnew x (hW x hx) (hU.past t x ht (hl x (hW x hx)) (not_lt.mp hle))
  intro hle
  have hid := hle t.id
  rw [hst, Finset.sup_apply] at hid
  have h0 : ⊥ < t.vector t.id := lt_of_le_of_lt bot_le (hlt w hw)
  exact absurd ((Finset.sup_lt_iff h0).mpr hlt) (not_lt.mpr hid)

/-- **The comparison with the joined clock is that with the write that is shown.** -/
theorem Register.cmp (hU : Writes U) (h : Register l st w) (hl : ∀ x ∈ l, U x) (ht : U t)
    (hnew : ∀ x ∈ l, ¬ t.vector ≤ x.vector) : vcCmp st t < 0 ↔ Loses w t := by
  have hnot := h.not_le hU hl ht hnew
  have hgt : ¬ t.vector < st.vector := fun hlt => hnot hlt.le
  have hw := hl w h.mem
  rcases hU.cases hw ht with rfl | hlt | hlt | ⟨hc, hid⟩
  · exact absurd le_rfl (hnew w h.mem)
  · refine iff_of_true ?_ (.inl hlt)
    by_cases hle : st.vector ≤ t.vector
    · rw [vcCmp_of_lt (lt_of_le_not_ge hle hnot)]
      decide
    · -- Some write that was joined is concurrent with `t`; then the origin of `t` is greater.
      obtain ⟨W, -, hW, hst⟩ := h.join
      rw [hst, Finset.sup_le_iff] at hle
      push Not at hle
      obtain ⟨x, hx, hxt⟩ := hle
      have hxl := hW x hx
      have hxw : Concurrent x w ∧ x.id < w.id := by
        rcases h.beats x hxl with rfl | hxw | hxw
        · exact absurd hlt.le hxt
        · exact absurd (hxw.trans hlt).le hxt
        · exact hxw
      have hid : w.id < t.id := by
        by_contra hid
        exact hU.noClash w t x hw ht (hl x hxl)
          ⟨hlt, hxw.1, ⟨hxt, hnew x hxl⟩, hxw.2, not_lt.mp hid⟩
      have hst' : ¬ st.vector < t.vector := fun hlt' =>
        hxt ((Finset.le_sup (f := Vc.vector) hx).trans (hst ▸ hlt'.le))
      rw [vcCmp_of_concurrent hst' hgt (h.id ▸ hid.ne), h.id, if_pos hid]
      decide
  · exact absurd hlt.le (hnew w h.mem)
  · have hst' : ¬ st.vector < t.vector := fun hlt => hc.1 (h.le.trans hlt.le)
    rw [vcCmp_of_concurrent hst' hgt (h.id ▸ hid), h.id]
    by_cases hlt : w.id < t.id
    · rw [if_pos hlt]
      exact iff_of_true (by decide) (.inr ⟨hc, hlt⟩)
    · rw [if_neg hlt]
      refine iff_of_false (by decide) ?_
      rintro (h' | ⟨-, h'⟩)
      · exact hc.1 h'.le
      · exact hlt h'

/-- A write that is accepted. -/
theorem Register.accept (hU : Writes U) (h : Register l st w) (hl : ∀ x ∈ l, U x) (ht : U t)
    (hlose : Loses w t) : Register (l ++ [t]) { vcUpdate st t with id := t.id } t := by
  obtain ⟨W, -, hW, hst⟩ := h.join
  refine ⟨by simp, fun x hx => ?_, rfl, insert t W, by simp, fun x hx => ?_, ?_⟩
  · rcases List.mem_append.mp hx with hx | hx
    · rcases h.beats x hx with rfl | hxw
      · exact .inr hlose
      · exact .inr (hU.trans (hl x hx) (hl w h.mem) ht hxw hlose)
    · exact .inl (List.mem_singleton.mp hx)
  · rcases Finset.mem_insert.mp hx with rfl | hx
    · simp
    · exact List.mem_append_left _ (hW x hx)
  · rw [Finset.sup_insert, ← hst, sup_comm]
    exact vcUpdate_vector st t

/-- A write that is rejected. -/
theorem Register.reject (hU : Writes U) (h : Register l st w) (hl : ∀ x ∈ l, U x) (ht : U t)
    (hnew : ∀ x ∈ l, ¬ t.vector ≤ x.vector) (hlose : ¬ Loses w t) : Register (l ++ [t]) st w := by
  obtain ⟨W, hw, hW, hst⟩ := h.join
  refine ⟨by simp [h.mem], fun x hx => ?_, h.id, W, hw,
    fun x hx => List.mem_append_left _ (hW x hx), hst⟩
  rcases List.mem_append.mp hx with hx | hx
  · exact h.beats x hx
  · rw [List.mem_singleton.mp hx]
    have hne : w ≠ t := by rintro rfl; exact hnew w h.mem le_rfl
    exact .inr ((hU.total (hl w h.mem) ht hne).resolve_left hlose)

/-- The write that is shown depends only on which writes there are. -/
theorem Register.unique {l' : List (Clock n)} {st' w' : Clock n} (h : Register l st w)
    (h' : Register l' st' w') (hl : ∀ x, x ∈ l ↔ x ∈ l') : w = w' := by
  rcases h'.beats w ((hl w).mp h.mem) with rfl | hlose
  · rfl
  · rcases h.beats w' ((hl w').mpr h'.mem) with heq | hlose'
    · exact heq.symm
    · exact absurd hlose' hlose.asymm

end Register

/-! ## The attributes of an entry -/

section Entry

variable {H H' L : List (RwMsg n InsertArgs RlUpd)} {p : Attr} {g : InsertArgs} {c : Clock n}

/-- The writes of attribute `p` of the entry of the insert with timestamp `c`. -/
def rlWrites (H : List (RwMsg n InsertArgs RlUpd)) (p : Attr) (c : Clock n) : List (Clock n) :=
  c :: H.filterMap fun
    | .upd u t => if attrOf u.type = some p ∧ before c t then some t else none
    | _ => none

/-- What write `w` leaves in attribute `p`. -/
inductive WrittenBy (H : List (RwMsg n InsertArgs RlUpd)) (p : Attr) (g : InsertArgs)
    (c w : Clock n) (v : BitVec 32) : Prop
  | insert (hw : w = c) (hv : v = (rlAseNew g c).attrs.get p)
  | update (u : RlUpd) (hu : .upd u w ∈ H) (hp : attrOf u.type = some p)
    (hv : v = p.written (u.value.setWidth 32) (u.value == 0))

theorem mem_rlWrites {x : Clock n} : x ∈ rlWrites H p c ↔
    x = c ∨ ∃ u, .upd u x ∈ H ∧ attrOf u.type = some p ∧ before c x = true := by
  simp only [rlWrites, List.mem_cons, List.mem_filterMap]
  refine or_congr_right ⟨?_, ?_⟩
  · rintro ⟨m, hm, hx⟩
    cases m with
    | upd u t =>
      obtain ⟨⟨hp, hb⟩, ht⟩ := Option.ite_none_right_eq_some.mp hx
      cases ht
      exact ⟨u, hm, hp, hb⟩
    | add a t => cases hx
    | rem t => cases hx
  · rintro ⟨u, hu, hp, hb⟩
    exact ⟨_, hu, by simp [hp, hb]⟩

theorem rlWrites_snoc_upd {u : RlUpd} {t : Clock n} (hp : attrOf u.type = some p)
    (hb : before c t = true) : rlWrites (L ++ [.upd u t]) p c = rlWrites L p c ++ [t] := by
  simp [rlWrites, hp, hb]

theorem rlWrites_snoc_of_ne {m : RwMsg n InsertArgs RlUpd}
    (h : ∀ u t, m = .upd u t → ¬ (attrOf u.type = some p ∧ before c t = true)) :
    rlWrites (L ++ [m]) p c = rlWrites L p c := by
  cases m with
  | upd u t =>
    have := h u t rfl
    simp only [rlWrites, List.filterMap_append, List.filterMap_cons, if_neg this]
    simp
  | add a t => simp [rlWrites]
  | rem t => simp [rlWrites]

theorem WrittenBy.mono {w : Clock n} {v : BitVec 32} (h : WrittenBy L p g c w v)
    (m : RwMsg n InsertArgs RlUpd) : WrittenBy (L ++ [m]) p g c w v := by
  cases h with
  | insert hw hv => exact .insert hw hv
  | update u hu hp hv => exact .update u (List.mem_append_left _ hu) hp hv

/-- An update of another attribute. -/
theorem rlAseUpdate_ne {u : RlUpd} (t : Clock n) (a : RlAse n) (h : attrOf u.type ≠ some p) :
    (rlAseUpdate u t a).clock p = a.clock p ∧ (rlAseUpdate u t a).attrs.get p = a.attrs.get p := by
  unfold rlAseUpdate
  split
  · exact ⟨rfl, rfl⟩
  · rename_i q hq
    have hpq : p ≠ q := by rintro rfl; exact h hq
    split
    · exact ⟨Function.update_of_ne hpq _ _, a.attrs.get_set_ne hpq _ _⟩
    · exact ⟨rfl, rfl⟩

/-- **An attribute of an entry is a register of its writes.** -/
theorem entry_register {U : Clock n → Prop} (hU : Writes U)
    (hO : L.Pairwise fun m m' => ¬ m'.t.vector ≤ m.t.vector)
    (hc : ∀ u t, .upd u t ∈ L → before c t = true → c.vector < t.vector)
    (hL : ∀ x ∈ rlWrites L p c, U x) :
    ∃ w, Register (rlWrites L p c) ((rwEntry (rlKind n) L g c).clock p) w ∧
      WrittenBy L p g c w ((rwEntry (rlKind n) L g c).attrs.get p) := by
  induction L using List.reverseRecOn with
  | nil => exact ⟨c, .first c, .insert rfl rfl⟩
  | append_singleton L m ih =>
    obtain ⟨hO', -, hlast⟩ := List.pairwise_append.mp hO
    have hsub : ∀ x ∈ rlWrites L p c, x ∈ rlWrites (L ++ [m]) p c := fun x hx => by
      rw [mem_rlWrites] at hx ⊢
      exact hx.imp_right fun ⟨u, hu, h⟩ => ⟨u, List.mem_append_left _ hu, h⟩
    obtain ⟨w, hw, hwv⟩ := ih hO' (fun u t hu => hc u t (List.mem_append_left _ hu))
      fun x hx => hL x (hsub x hx)
    -- A message that does not write the attribute.
    have hskip : (∀ u t, m = .upd u t → ¬ (attrOf u.type = some p ∧ before c t = true)) →
        (rwEntry (rlKind n) (L ++ [m]) g c).clock p = (rwEntry (rlKind n) L g c).clock p →
        (rwEntry (rlKind n) (L ++ [m]) g c).attrs.get p =
          (rwEntry (rlKind n) L g c).attrs.get p →
        ∃ w, Register (rlWrites (L ++ [m]) p c) ((rwEntry (rlKind n) (L ++ [m]) g c).clock p) w ∧
          WrittenBy (L ++ [m]) p g c w ((rwEntry (rlKind n) (L ++ [m]) g c).attrs.get p) :=
      fun hm h₁ h₂ => ⟨w, by rw [rlWrites_snoc_of_ne hm, h₁]; exact hw,
        by rw [h₂]; exact hwv.mono m⟩
    cases m with
    | add a t =>
      have h := rwEntry_snoc_of_ne (K := rlKind n) (H := L) (m := .add a t) (a := g) (t := c) rfl
      exact hskip nofun (by rw [h]) (by rw [h])
    | rem t =>
      have h := rwEntry_snoc_of_ne (K := rlKind n) (H := L) (m := .rem t) (a := g) (t := c) rfl
      exact hskip nofun (by rw [h]) (by rw [h])
    | upd u t =>
      have h := rwEntry_snoc_upd (K := rlKind n) (H := L) (a := g) (u := u) (t := c) (c := t)
      by_cases hb : before c t = true
      · rw [if_pos hb] at h
        by_cases hp : attrOf u.type = some p
        · have ht : U t := hL t (mem_rlWrites.mpr (.inr ⟨u, by simp, hp, hb⟩))
          have hLU : ∀ x ∈ rlWrites L p c, U x := fun x hx => hL x (hsub x hx)
          have hnew : ∀ x ∈ rlWrites L p c, ¬ t.vector ≤ x.vector := by
            intro x hx
            rcases mem_rlWrites.mp hx with rfl | ⟨u', hu', -⟩
            · exact not_le_of_gt (hc u t (by simp) hb)
            · exact hlast _ hu' _ (List.mem_singleton_self _)
          rw [h, rlWrites_snoc_upd hp hb]
          simp only [rlKind, rlAseUpdate, hp]
          split
          · rename_i hcmp
            refine ⟨t, ?_, .update u (by simp) hp (by simp)⟩
            simp only [Function.update_self]
            exact hw.accept hU hLU ht ((hw.cmp hU hLU ht hnew).mp hcmp)
          · rename_i hcmp
            exact ⟨w, hw.reject hU hLU ht hnew fun hl => hcmp ((hw.cmp hU hLU ht hnew).mpr hl),
              hwv.mono _⟩
        · obtain ⟨h₁, h₂⟩ := rlAseUpdate_ne (p := p) t (rwEntry (rlKind n) L g c) hp
          exact hskip (fun u' t' he h' => by cases he; exact hp h'.1) (by rw [h]; exact h₁)
            (by rw [h]; exact h₂)
      · rw [if_neg hb] at h
        exact hskip (fun u' t' he h' => by cases he; exact hb h'.2) (by rw [h]) (by rw [h])

/-- The writes of an attribute of an entry, in a history in causal order. -/
theorem CausalHist.writes (hH : CausalHist H) (hadd : .add g c ∈ H)
    (hno : ∀ w t x, w ∈ rlWrites H p c → t ∈ rlWrites H p c → x ∈ rlWrites H p c →
      c.vector < w.vector → c.vector < t.vector → c.vector < x.vector → ¬ Clash w t x) :
    Writes (· ∈ rlWrites H p c) := by
  have hmsg : ∀ x ∈ rlWrites H p c, ∃ m ∈ H, m.t = x ∧ c.vector ≤ x.vector := by
    intro x hx
    rcases mem_rlWrites.mp hx with rfl | ⟨u, hu, -, hb⟩
    · exact ⟨_, hadd, rfl, le_rfl⟩
    · exact ⟨_, hu, rfl, ((hH.before_iff (.add g c) _ hadd hu).mp hb).le⟩
  refine ⟨fun a b ha hb hle => ?_, fun a b ha hb heq => ?_, fun w t x hw ht hx hcl => ?_⟩
  · obtain ⟨m, hm, rfl, -⟩ := hmsg a ha
    obtain ⟨m', hm', rfl, -⟩ := hmsg b hb
    exact hH.past m hm m' hm' hle
  · obtain ⟨m, hm, rfl, -⟩ := hmsg a ha
    obtain ⟨m', hm', rfl, -⟩ := hmsg b hb
    rw [hH.eq_of_vector hm hm' heq]
  · -- The insert is below all writes, so it is in no clash.
    obtain ⟨-, -, -, hcw⟩ := hmsg w hw
    obtain ⟨-, -, -, hcx⟩ := hmsg x hx
    obtain ⟨hlt, hxw, -, -, -⟩ := id hcl
    have hw' : c.vector < w.vector := lt_of_le_of_ne hcw fun h => hxw.2 (h ▸ hcx)
    have hx' : c.vector < x.vector := lt_of_le_of_ne hcx fun h => hxw.1 (h ▸ hcw)
    exact hno w t x hw ht hx hw' (hw'.trans hlt) hx' hcl

/-- A write leaves one value. -/
theorem WrittenBy.unique (hH : CausalHist H) (hadd : .add g c ∈ H) {w : Clock n} {v v' : BitVec 32}
    (h : WrittenBy H p g c w v) (h' : WrittenBy H p g c w v') : v = v' := by
  cases h with
  | insert hw hv =>
    cases h' with
    | insert _ hv' => rw [hv, hv']
    | update u hu hp hv' =>
      subst hw
      cases hH.eq_of_vector hadd hu rfl
  | update u hu hp hv =>
    cases h' with
    | insert hw _ =>
      subst hw
      cases hH.eq_of_vector hadd hu rfl
    | update u' hu' hp' hv' =>
      cases hH.eq_of_vector hu hu' rfl
      rw [hv, hv']

/-- Histories with the same messages leave the same value. -/
theorem entry_congr (hH : CausalHist H) (hH' : CausalHist H') (hm : ∀ m, m ∈ H ↔ m ∈ H')
    (hadd : .add g c ∈ H)
    (hno : ∀ w t x, w ∈ rlWrites H p c → t ∈ rlWrites H p c → x ∈ rlWrites H p c →
      c.vector < w.vector → c.vector < t.vector → c.vector < x.vector → ¬ Clash w t x) :
    (rwEntry (rlKind n) H g c).attrs.get p = (rwEntry (rlKind n) H' g c).attrs.get p := by
  have hmem : ∀ x, x ∈ rlWrites H p c ↔ x ∈ rlWrites H' p c := fun x => by
    simp only [mem_rlWrites, hm]
  have hU := hH.writes hadd hno
  have hbefore : ∀ u t, .upd u t ∈ H → before c t = true → c.vector < t.vector :=
    fun u t hu hb => (hH.before_iff (.add g c) _ hadd hu).mp hb
  obtain ⟨w, hw, hv⟩ := entry_register (g := g) hU hH.order hbefore fun x hx => hx
  obtain ⟨w', hw', hv'⟩ := entry_register (g := g) hU hH'.order
    (fun u t hu => hbefore u t ((hm _).mpr hu)) fun x hx => (hmem x).mpr hx
  obtain rfl := hw.unique hw' hmem
  refine hv.unique hH hadd ?_
  cases hv' with
  | insert h₁ h₂ => exact .insert h₁ h₂
  | update u hu h₁ h₂ => exact .update u ((hm _).mpr hu) h₁ h₂

end Entry

/-! ## The list -/

def RlMsg.attr : RlMsg n → Option Attr
  | .update _ type _ _ => attrOf type
  | _ => none

/-- An update of attribute `p` of element `k` above the insert with timestamp `c`. -/
def RlMsg.Sets (k : Sds) (p : Attr) (c : Clock n) (m : RlMsg n) : Prop :=
  m.id = k ∧ m.attr = some p ∧ c.vector < m.t.vector

/-- No three updates of attribute `p` of element `k` in `S`, above the insert with timestamp `c`,
clash. -/
def NoClash (S : Finset (RlMsg n)) (k : Sds) (p : Attr) (c : Clock n) : Prop :=
  ∀ w ∈ S, ∀ t ∈ S, ∀ x ∈ S, w.Sets k p c → t.Sets k p c → x.Sets k p c → ¬ Clash w.t t.t x.t

section List

variable {s : Sys (Fin n) (Option (RlSt n)) (RlMsg n)} {r q : Fin n} {x y : RlSt n}

/-- The writes of an attribute above its insert are the updates applied. -/
theorem sets_of_mem_rlWrites {k : Sds} {p : Attr} {c t : Clock n}
    (h : t ∈ rlWrites (rlOn k x.hist) p c) (hc : c.vector < t.vector) :
    ∃ m ∈ x.applied, m.Sets k p c ∧ m.t = t := by
  rcases mem_rlWrites.mp h with rfl | ⟨u, hu, hp, -⟩
  · exact absurd hc (lt_irrefl _)
  · obtain ⟨m, hm, hk, he⟩ := mem_rlOn.mp hu
    cases m with
    | update id type value t' =>
      cases he
      exact ⟨_, List.mem_toFinset.mpr hm, ⟨hk, hp, hc⟩, rfl⟩
    | insert prev id content args pos t' => cases he
    | rem id t' => cases he

/-- **Convergence of the attributes**: in every run of commands that name none of the table's own
names, replicas that applied the same operations show the same value of every attribute of every
element whose updates do not clash. -/
theorem rl_attributes (hs : (rlObj n).Reach rlGuard s) (hx : s.st r = some x)
    (hy : s.st q = some y) (hS : x.applied = y.applied) (k : Sds) (p : Attr)
    (hno : ∀ c, (x.ht.node k).body.value = some c → NoClash x.applied k p c) :
    (x.ht.node k).body.shown.map (·.get p) = (y.ht.node k).body.shown.map (·.get p) := by
  have hH := rl_causalHist hs hx k
  have hH' := rl_causalHist hs hy k
  have hcx := rl_rwClosed hs hx k
  have hcy := rl_rwClosed hs hy k
  have hmem := mem_rlOn_congr hS k
  have hv := hcx.value_congr hH hcy hmem
  cases hc : (x.ht.node k).body.value with
  | none => simp [RwSets.shown, hc, ← hv]
  | some c =>
    obtain ⟨g, hg, hsx⟩ := hcx.shown_eq hc
    obtain ⟨g', hg', hsy⟩ := hcy.shown_eq (hv ▸ hc)
    cases hH.eq_of_vector hg ((hmem _).mpr hg') rfl
    rw [hsx, hsy, Option.map_some, Option.map_some]
    congr 1
    refine entry_congr hH hH' hmem hg fun w t z hw ht hz hcw hct hcz => ?_
    obtain ⟨w', hw', hws, rfl⟩ := sets_of_mem_rlWrites hw hcw
    obtain ⟨t', ht', hts, rfl⟩ := sets_of_mem_rlWrites ht hct
    obtain ⟨z', hz', hzs, rfl⟩ := sets_of_mem_rlWrites hz hcz
    exact hno c hc w' hw' t' ht' z' hz' hws hts hzs

end List

/-! ## Concrete runs -/

local instance vectorDecidableLe {n : ℕ} (a b : Fin n → ℕ) : Decidable (a ≤ b) :=
  inferInstanceAs (Decidable (∀ i, a i ≤ b i))

local instance vectorDecidableLt {n : ℕ} (a b : Fin n → ℕ) : Decidable (a < b) :=
  decidable_of_iff' _ lt_iff_le_not_ge

instance (S : Finset (RlMsg n)) (k : Sds) (p : Attr) (c : Clock n) :
    Decidable (NoClash S k p c) := by
  unfold NoClash RlMsg.Sets Clash Concurrent
  infer_instance

/-- Two concurrent updates of one attribute, and one above both. -/
def rlAttrDemo : List (Ev (Fin 2) LCmd) :=
  let a : Sds := "a".toList
  [.op 0 (insertFront a 5) 0, .recv 1 0, .op 0 (.update 5 a "font".toList (some 5)) 1,
    .op 1 (.update 5 a "FONT".toList (some 7)) 2, .recv 0 2,
    .op 0 (.update 5 a "bold".toList (some 1)) 3, .recv 1 3, .recv 1 1]

/-- The condition holds of a run with concurrent updates. -/
theorem rl_attributes_demo :
    let s := (rlObj 2).runOf rlAttrDemo
    ∃ x y, s.st 0 = some x ∧ s.st 1 = some y ∧
      (x.ht.node "a".toList).body.shown.map (·.get (.normal .font)) =
        (y.ht.node "a".toList).body.shown.map (·.get (.normal .font)) := by
  have hs : (rlObj 2).Reach rlGuard ((rlObj 2).runOf rlAttrDemo) :=
    Obj.reach_runOf rlGuard_of_ok rlAttrDemo (by decide +kernel)
  have h : (((rlObj 2).runOf rlAttrDemo).st 0).bind (fun x =>
      (((rlObj 2).runOf rlAttrDemo).st 1).map fun y => decide (x.applied = y.applied ∧
        ∀ c ∈ (x.ht.node "a".toList).body.value,
          NoClash x.applied "a".toList (.normal .font) c)) = some true := by
    decide +kernel
  obtain ⟨x, hx, h⟩ := Option.bind_eq_some_iff.mp h
  obtain ⟨y, hy, h⟩ := Option.map_eq_some_iff.mp h
  obtain ⟨hS, hno⟩ := of_decide_eq_true h
  exact ⟨x, y, hx, hy, rl_attributes hs hx hy hS "a".toList (.normal .font) hno⟩

/-- Replica `1` updates an attribute twice, concurrently with an update at replica `0`. -/
def rlClashRun : List (Ev (Fin 2) LCmd) :=
  let a : Sds := "a".toList
  [.op 0 (insertFront a 5) 0, .recv 1 0, .op 0 (.update 5 a "font".toList (some 5)) 1,
    .op 1 (.update 5 a "font".toList (some 7)) 2, .op 1 (.update 5 a "font".toList (some 9)) 3,
    .recv 0 2, .recv 0 3, .recv 1 1]

/-- **Updates that clash break convergence**: two replicas have applied the same operations,
received in the order of each origin, and show different values of an attribute. At replica `0` the
second update of replica `1` is compared with the join of the first one and its own update, and is
rejected. -/
theorem rl_attribute_diverges :
    ∃ s, (rlObj 2).Reach (fun s e => fifo s e ∧ rlListGuard s e) s ∧ s.recv 0 = s.recv 1 ∧
      ∃ x y, s.st 0 = some x ∧ s.st 1 = some y ∧ x.applied = y.applied ∧
        (x.ht.node "a".toList).body.lookup = true ∧ (y.ht.node "a".toList).body.lookup = true ∧
        (x.ht.node "a".toList).body.shown.map (·.get (.normal .font)) = some 7 ∧
        (y.ht.node "a".toList).body.shown.map (·.get (.normal .font)) = some 9 := by
  refine ⟨(rlObj 2).runOf rlClashRun, Obj.reach_runOf
    (g := fun s e => Obj.fifoOk s e && rlListGuardOk s e) (fun s e h => ?_) _ (by decide +kernel),
    by decide +kernel, ?_⟩
  · simp only [Bool.and_eq_true] at h
    exact ⟨Obj.fifo_of_fifoOk s e h.1, rlListGuard_of_ok s e h.2⟩
  · have h : (((rlObj 2).runOf rlClashRun).st 0).bind (fun x =>
        (((rlObj 2).runOf rlClashRun).st 1).map fun y => decide (x.applied = y.applied ∧
          (x.ht.node "a".toList).body.lookup = true ∧ (y.ht.node "a".toList).body.lookup = true ∧
          (x.ht.node "a".toList).body.shown.map (·.get (.normal .font)) = some 7 ∧
          (y.ht.node "a".toList).body.shown.map (·.get (.normal .font)) = some 9)) = some true := by
      decide +kernel
    obtain ⟨x, hx, h⟩ := Option.bind_eq_some_iff.mp h
    obtain ⟨y, hy, h⟩ := Option.map_eq_some_iff.mp h
    exact ⟨x, y, hx, hy, of_decide_eq_true h⟩

end CrdtRedis
