import CrdtRedis.OZset.Pointers

/-!
# The score as a function of the live tags

`innate` and `acquired` are chosen message by message. What they should be is a matter of the live
entries alone: the greatest tag gives the value, the greatest count, and then tag, gives the
increment (`liveScore`).

* `OzWf.score_eq`: the score is that of the live entries if `innate` is the greatest live tag.
* `oz_selection`: in every run, whatever the order of delivery, this holds of an element whose live
  tags have all had their add applied.
-/

namespace CrdtRedis

open Broadcast

variable {n : ℕ}

/-! ## The greatest element of a set -/

section Greatest

variable {α K : Type} [LinearOrder K]

open Classical in
/-- `val` of the greatest element in the order of `key`, or 0 if there is none. -/
noncomputable def ofGreatest (key : α → K) (val : α → ℚ) (L : Set α) : ℚ :=
  if h : ∃ a ∈ L, ∀ b ∈ L, key b ≤ key a then val h.choose else 0

theorem ofGreatest_eq {key : α → K} (val : α → ℚ) {L : Set α} (hinj : Set.InjOn key L) {a : α}
    (ha : a ∈ L) (hmax : ∀ b ∈ L, key b ≤ key a) : ofGreatest key val L = val a := by
  have h : ∃ a ∈ L, ∀ b ∈ L, key b ≤ key a := ⟨a, ha, hmax⟩
  obtain ⟨hm, hle⟩ := h.choose_spec
  have heq : h.choose = a := hinj hm ha (le_antisymm (hmax _ hm) (hle a ha))
  unfold ofGreatest
  rw [dif_pos h, heq]

theorem ofGreatest_empty (key : α → K) (val : α → ℚ) : ofGreatest key val ∅ = 0 := by
  unfold ofGreatest
  rw [dif_neg]
  rintro ⟨a, ha, -⟩
  exact ha

end Greatest

/-! ## The score of the live entries -/

/-- The score that a set of live entries should have. -/
noncomputable def liveScore (L : Set OzAse) : ℚ :=
  ofGreatest (fun a => a.t.tagKey) OzAse.x L + ofGreatest acqKey OzAse.inc L

section Score

variable {e : OzTags}

theorem OzWf.injOn_tagKey (hw : OzWf e) :
    Set.InjOn (fun a : OzAse => a.t.tagKey) {a | a ∈ e.aset} :=
  fun _ ha _ hb h => hw.eq_of_tag ha hb (Lc.tagKey_inj.mp h)

theorem OzWf.injOn_acqKey (hw : OzWf e) : Set.InjOn acqKey {a | a ∈ e.aset} :=
  fun _ ha _ hb h => hw.eq_of_tag ha hb (Lc.tagKey_inj.mp (congrArg (fun k => (ofLex k).2) h))

/-- The value of the score is that of the greatest tag, if `innate` is. -/
theorem OzWf.value_eq (hw : OzWf e)
    (hi : ∀ a ∈ e.aset, ∃ i, e.innate = some i ∧ a.t.tagKey ≤ i.tagKey) :
    ((e.deref e.innate).map OzAse.x).getD 0 =
      ofGreatest (fun a => a.t.tagKey) OzAse.x {a | a ∈ e.aset} := by
  cases hinnate : e.innate with
  | none =>
    have hnil : {a | a ∈ e.aset} = (∅ : Set OzAse) := by
      refine Set.eq_empty_of_forall_notMem fun a ha => ?_
      obtain ⟨i, h, -⟩ := hi a ha
      rw [hinnate] at h
      cases h
    rw [hnil, ofGreatest_empty]
    rfl
  | some i =>
    obtain ⟨a, ha, rfl⟩ := List.mem_map.mp (hw.innate i hinnate)
    have hmax : ∀ b ∈ e.aset, b.t.tagKey ≤ a.t.tagKey := by
      intro b hb
      obtain ⟨j, h, hle⟩ := hi b hb
      rw [hinnate] at h
      cases h
      exact hle
    have hget : e.asetGet a.t = some a := find?_of_mem hw.nodup ha
    rw [ofGreatest_eq OzAse.x hw.injOn_tagKey ha hmax, OzTags.deref, Option.bind_some, hget]
    rfl

/-- The increment of the score is that of the greatest entry. -/
theorem AcqOk.shownInc_eq (h : AcqOk e) (hw : OzWf e)
    (hinc : ∀ a ∈ e.aset, a.count = 0 → a.inc = 0) :
    e.shownInc = ofGreatest acqKey OzAse.inc {a | a ∈ e.aset} := by
  by_cases hnil : e.aset = []
  · have hnone : e.deref e.acquired = none := by
      rw [Option.eq_none_iff_forall_not_mem]
      intro q hq
      have := (OzWf.deref_mem hq).1
      rw [hnil] at this
      cases this
    have hempty : {a | a ∈ e.aset} = (∅ : Set OzAse) := by simp [hnil]
    rw [hempty, ofGreatest_empty, OzTags.shownInc, hnone]
    rfl
  · obtain ⟨b, hb, hmax⟩ := exists_greatest acqKey hnil
    rw [ofGreatest_eq OzAse.inc hw.injOn_acqKey hb hmax]
    exact h.shownInc hw hinc hb fun c hc => .inr (hmax c hc)

theorem acqKey_le_iff {a b : OzAse} : acqKey b ≤ acqKey a ↔
    b.count < a.count ∨ b.count = a.count ∧ lcCmpAsTag b.t a.t ≤ 0 := by
  rw [acqKey, acqKey, Prod.Lex.toLex_le_toLex, lcCmpAsTag_le_zero]

end Score

/-! ## Runs -/

/-- **The selection of the score.** In every run of the queue, in any order of delivery: if every
live tag of an element has had its `ozadd` applied, then `innate` is the greatest live tag, the
increment of the score is that of the live tag with the greatest count, and among those the greatest
tag, and so the score is a function of the live entries. -/
theorem oz_selection {junk : Sds → Fin n → Lc → ℚ}
    {s : Sys (Fin n) (Sds → OzCell) (Sds × OzMsg)} (hs : (ozObj n junk).Reach anyOrder s)
    (k : Sds) (r : Fin n)
    (hadd : ∀ t ∈ (s.st r k).get.aset.map OzAse.t, OzAdded (ozOn junk s k) r t) :
    ((s.st r k).get.aset ≠ [] → ∃ i, (s.st r k).get.innate = some i ∧
      i ∈ (s.st r k).get.aset.map OzAse.t ∧
      ∀ t ∈ (s.st r k).get.aset.map OzAse.t, lcCmpAsTag t i ≤ 0) ∧
    ((s.st r k).get.aset ≠ [] → ∃ a ∈ (s.st r k).get.aset,
      (∀ b ∈ (s.st r k).get.aset,
        b.count < a.count ∨ b.count = a.count ∧ lcCmpAsTag b.t a.t ≤ 0) ∧
      (s.st r k).get.shownInc = a.inc) ∧
    (s.st r k).get.score = liveScore {a | a ∈ (s.st r k).get.aset} := by
  have hk : (ozEleObj n (junk k)).Reach anyOrder (ozOn junk s k) :=
    ((keyedView _ k).reach (fun _ _ _ _ _ => trivial) (fun _ _ _ _ => trivial)
      (fun _ _ _ _ _ _ _ => trivial) hs).1
  have hw : OzWf (s.st r k).get.toOzTags := ozEle_wf hk r
  have htop : InnateTop (OzAdded (ozOn junk s k) r) (s.st r k).get.toOzTags := ozEle_innateTop hk r
  have hacq : AcqOk (s.st r k).get.toOzTags := ozEle_acquired hk r
  have hinc : ∀ a ∈ (s.st r k).get.aset, a.count = 0 → a.inc = 0 := fun a =>
    (ozEle_closed hk r).inc_eq_zero
  -- A live tag was added and not removed, so `innate` is not below it.
  have hinnate : ∀ a ∈ (s.st r k).get.aset,
      ∃ i, (s.st r k).get.innate = some i ∧ a.t.tagKey ≤ i.tagKey := by
    intro a ha
    have hlive := List.mem_map_of_mem (f := OzAse.t) ha
    cases hi : (s.st r k).get.innate with
    | none => exact absurd (htop.null hi a.t (hadd a.t hlive)) (hw.live a.t hlive)
    | some i => exact ⟨i, rfl, htop.top i hi a.t (hadd a.t hlive) (hw.live a.t hlive)⟩
  refine ⟨fun hne => ?_, fun hne => ?_, ?_⟩
  · obtain ⟨a, ha⟩ := List.exists_mem_of_ne_nil _ hne
    obtain ⟨i, hi, -⟩ := hinnate a ha
    refine ⟨i, hi, hw.innate i hi, fun t ht => ?_⟩
    obtain ⟨b, hb, rfl⟩ := List.mem_map.mp ht
    obtain ⟨j, hj, hle⟩ := hinnate b hb
    cases hi.symm.trans hj
    exact lcCmpAsTag_le_zero.mpr hle
  · obtain ⟨a, ha, hmax⟩ := exists_greatest acqKey hne
    exact ⟨a, ha, fun b hb => acqKey_le_iff.mp (hmax b hb),
      hacq.shownInc hw hinc ha fun b hb => .inr (hmax b hb)⟩
  · exact congrArg₂ (· + ·) (hw.value_eq hinnate) (hacq.shownInc_eq hw hinc)

/-- Two adds are concurrent, and each replica increments its own tag: the tag of replica 1 is the
greater one, and that of replica 0 has the greater count. -/
def ozTwoTags : List (Ev (Fin 2) (Sds × ZCmd)) :=
  let a : Sds := ['a']
  [.op 0 (a, .zadd 4 (some 5)) 0, .op 1 (a, .zadd 4 (some 7)) 1, .op 0 (a, .zincrby 4 (some 2)) 2,
    .op 0 (a, .zincrby 4 (some (-3))) 3, .op 1 (a, .zincrby 4 (some 4)) 4, .recv 0 1, .recv 0 4]

/-- The hypotheses hold of that run, at replica 0: the score is the value 7 of the one tag with the
increment -1 of the other. -/
theorem oz_selection_demo :
    let e := (((ozObj 2 fun _ _ _ => 0).runOf ozTwoTags).st 0 ['a']).get
    e.aset.map (fun a => (a.t, a.x, a.inc, a.count)) = [(⟨0, 0⟩, 5, -1, 5), (⟨0, 1⟩, 7, 4, 4)] ∧
      e.score = 6 ∧
      (∃ i, e.innate = some i ∧ i ∈ e.aset.map OzAse.t ∧
        ∀ t ∈ e.aset.map OzAse.t, lcCmpAsTag t i ≤ 0) ∧
      (∃ a ∈ e.aset,
        (∀ b ∈ e.aset, b.count < a.count ∨ b.count = a.count ∧ lcCmpAsTag b.t a.t ≤ 0) ∧
        e.shownInc = a.inc) ∧
      e.score = liveScore {a | a ∈ e.aset} := by
  intro e
  have hadd : ∀ t ∈ e.aset.map OzAse.t,
      ∃ j ∈ (ozOn (fun _ _ _ => 0) ((ozObj 2 fun _ _ _ => 0).runOf ozTwoTags) ['a']).recv 0,
        ((ozOn (fun _ _ _ => 0) ((ozObj 2 fun _ _ _ => 0).runOf ozTwoTags) ['a']).msg j).any
          (OzMsg.adds t) = true := by
    decide +kernel
  have hs : (ozObj 2 fun _ _ _ => 0).Reach anyOrder ((ozObj 2 fun _ _ _ => 0).runOf ozTwoTags) :=
    Obj.reach_runOf (g := fun _ _ => true) (fun _ _ _ => trivial) ozTwoTags (by decide +kernel)
  have haset : e.aset.map (fun a => (a.t, a.x, a.inc, a.count)) =
      [(⟨0, 0⟩, 5, -1, 5), (⟨0, 1⟩, 7, 4, 4)] := by decide +kernel
  have hne : e.aset ≠ [] := by
    intro h
    rw [h] at haset
    cases haset
  obtain ⟨hinnate, hinc, hscore⟩ := oz_selection hs ['a'] 0 fun t ht => .of_adds (hadd t ht)
  exact ⟨haset, by decide +kernel, hinnate hne, hinc hne, hscore⟩

end CrdtRedis
